import Gtexswifi.SystemOptimizer.Beneath

/-! Which critical files and which packages of applications a run keeps, and
a run on a plain device that keeps neither. -/
namespace SystemOptimizer

open FileTree

/-- The canonical path of a location. -/
def pathOf (l : Location) : Text := l.flatMap fun name => '/' :: name

def RegularFile (t : Volume) (l : Location) : Prop := ∃ data, t.node l = some (.file data)

/-- What `gzip` puts before the content. -/
def packed (data : FileData) : FileData := { data with content := 31 :: 139 :: data.content }

/-- A shell that knows `mount` and `gzip` and finds no other command. -/
def toyboxShell (command : Command) (t : Volume) : Bool × List Effect :=
  match command with
  | .mountRW => (true, [])
  | .mountRO => (true, [])
  | .gzip path =>
      match t.locate path, t.locate (path ++ ".gz".toList), t.stat path with
      | some l, some target, some (.file data) =>
          if t.node target = none ∧ t.node l ≠ none then
            (true, [.write target (packed data), .remove l])
          else (false, [])
      | _, _, _ => (false, [])
  | _ => (false, [])

theorem toyboxShell_gzip {t : Volume} {path : Text} {e : Effect}
    (h : e ∈ (toyboxShell (.gzip path) t).2) :
    (∃ l data, t.locate (path ++ ".gz".toList) = some l ∧ t.node l ≠ some .dir ∧
      e = .write l data) ∨
    ∃ l, t.locate path = some l ∧ t.node l ≠ none ∧ e = .remove l := by
  rw [toyboxShell] at h
  split at h
  · next l target data hPath hTarget hStat =>
    split at h
    · next hNode =>
      cases List.mem_cons.mp h with
      | inl hWrite =>
          have hFree : t.node target ≠ some .dir := by
            rw [hNode.1]
            exact fun hSame => nomatch hSame
          exact .inl ⟨target, packed data, hTarget, hFree, hWrite⟩
      | inr hRemove => exact .inr ⟨l, hPath, hNode.2, List.mem_singleton.mp hRemove⟩
    · cases h
  · cases h

/-- The shell of the examples does what is documented of each of its
commands. -/
theorem toyboxShell_documented : Documented toyboxShell where
  remount := by
    intro command t hRemount
    simp only [Command.IsRemount, List.mem_cons, List.not_mem_nil, or_false] at hRemount
    rcases hRemount with rfl | rfl | rfl | rfl
    · rfl
    · rfl
    · rfl
    · rfl
  whichPngcrush _ := rfl
  gzip _ _ _ h := toyboxShell_gzip h
  convert _ _ _ _ h := nomatch h
  strip _ _ _ h := nomatch h
  zipDelete _ _ _ h := nomatch h
  pngcrush _ _ _ _ h := nomatch h
  mv _ _ _ _ _ h := nomatch h
  unzip _ _ _ := trivial
  unzip_nowhere _ _ _ _ := rfl
  findConvert _ _ := trivial
  zipUpdate _ _ _ := trivial
  rmRf _ _ _ h := nomatch h

def toybox : Env where
  uid := 0
  dryRun := false
  time _ := 0
  shell := toyboxShell
  sizeBits := 32

/-- A device with one framework archive and one application that stays. -/
def plainDevice : Volume where
  entries :=
    [(["system".toList], .dir),
      (["system".toList, "framework".toList], .dir),
      (["system".toList, "framework".toList, "framework.jar".toList],
        .file { content := [80, 75, 3, 4], modified := 0, executable := false }),
      (["system".toList, "app".toList], .dir),
      (["system".toList, "app".toList, "Settings".toList], .dir),
      (["system".toList, "app".toList, "Settings".toList, "Settings.apk".toList],
        .file { content := [80, 75, 5, 6], modified := 0, executable := false })]
  cwd := []

theorem plainDevice_linkFree : plainDevice.LinkFree := linkFree_of_entries (by decide)

theorem settings_stays : "Settings".toList ∉ removableApps.map String.toList := by
  intro hMem
  obtain ⟨app, hApp, hSame⟩ := List.mem_map.mp hMem
  rw [String.toList_inj.mp hSame] at hApp
  exact absurd hApp (by simp [removableApps])

/-- An entry of one of the two application directories is no directory,
unless it is the application that stays. -/
theorem plainDevice_app {app : Text} (hApp : app ∈ inSetOrder removableApps) {dir : Text}
    (hDir : dir ∈ apkDirs) : directoryExists plainDevice (entryPath dir app) = false := by
  apply decide_eq_false
  intro hStat
  obtain ⟨l, hResolve, hNode, _⟩ := stat_eq_some.mp hStat
  have hVisible := visible_app hApp
  have hNotEmpty : dir ≠ [] := by
    rcases List.mem_pair.mp hDir with rfl | rfl
    · exact List.cons_ne_nil _ _
    · exact List.cons_ne_nil _ _
  obtain ⟨base, hBase, rfl⟩ := resolve_entry plainDevice_linkFree hNotEmpty hVisible.1
    (of_decide_eq_false hVisible.2) hResolve
  have hPlace : plainDevice.resolve dir = some ["system".toList, "app".toList] ∨
      plainDevice.resolve dir = some ["system".toList, "priv-app".toList] := by
    rcases List.mem_pair.mp hDir with rfl | rfl
    · exact Or.inl (by decide)
    · exact Or.inr (by decide)
  have hMem := mem_entries_of_node (by simp) hNode
  cases hPlace with
  | inl hApps =>
      obtain rfl := Option.some.inj (hApps.symm.trans hBase)
      simp [plainDevice] at hMem
      rw [inSetOrder, List.mem_dedup, List.mem_insertionSort, hMem] at hApp
      exact settings_stays hApp
  | inr hPriv =>
      obtain rfl := Option.some.inj (hPriv.symm.trans hBase)
      simp [plainDevice] at hMem

/-- The device has none of the applications that would be removed. -/
theorem removeUnusedApps_plainDevice {run : Run} (h : run.tree = plainDevice) :
    removeUnusedApps toybox run = (true, run) := by
  have hStays (apps : List Text) (hApps : ∀ app ∈ apps, app ∈ inSetOrder removableApps) :
      apps.foldl (fun run app => removeDirectory toybox (removeDirectory toybox run
        (entryPath appPath app)) (entryPath privAppPath app)) run = run := by
    induction apps with
    | nil => rfl
    | cons app rest ih =>
        have hApp := hApps app List.mem_cons_self
        have hSame (dir : Text) (hDir : dir ∈ apkDirs) :
            removeDirectory toybox run (entryPath dir app) = run := by
          rw [removeDirectory, h, plainDevice_app hApp hDir]
          rfl
        rw [List.foldl_cons, hSame appPath List.mem_cons_self,
          hSame privAppPath (List.mem_cons_of_mem _ List.mem_cons_self)]
        exact ih fun other hOther => hApps other (List.mem_cons_of_mem _ hOther)
  rw [removeUnusedApps, hStays _ fun _ h => h]

/-- Neither the second measurement nor the last command changes the tree. -/
theorem toybox_measured (run : Run) :
    (mountSystemRO toybox (measureOptimized toybox run)).2.tree = run.tree := rfl

/-- What the passes leave of the plain device: both archives packed. -/
def packedDevice : Volume where
  entries :=
    [(["system".toList], .dir),
      (["system".toList, "framework".toList], .dir),
      (["system".toList, "app".toList], .dir),
      (["system".toList, "app".toList, "Settings".toList], .dir),
      (["system".toList, "app".toList, "Settings".toList, "Settings.apk.gz".toList],
        .file { content := [31, 139, 80, 75, 5, 6], modified := 0, executable := false }),
      (["system".toList, "framework".toList, "framework.jar.gz".toList],
        .file { content := [31, 139, 80, 75, 3, 4], modified := 0, executable := false })]
  cwd := []

/-- The first pass leaves the plain device as it is, so the others can be
run on it. -/
theorem runOptimizations_plainDevice :
    (runOptimizations toybox (measureOriginal toybox
      (mountSystemRW toybox (.start plainDevice)).2)).tree = packedDevice := by
  rw [runOptimizations, optimizations, List.foldl_cons, removeUnusedApps_plainDevice rfl]
  decide +kernel

/-- A run on the plain device gets to the passes. -/
theorem starts_plainDevice : Starts toybox appPath (.start plainDevice) where
  root := rfl
  mounted := rfl
  scanned := by decide

/-- What the run makes of the device: the application is packed, and nothing
else happens. -/
theorem optimizeSystem_plainDevice :
    (optimizeSystem toybox appPath (.start plainDevice)).2.tree = packedDevice := by
  rw [optimizeSystem_passes starts_plainDevice, toybox_measured, runOptimizations_plainDevice]

/-- It packs the framework and the application. -/
theorem toybox_plainDevice :
    (optimizeSystem toybox appPath (.start plainDevice)).2.tree.node
        ["system".toList, "framework".toList, "framework.jar".toList] = none ∧
      (optimizeSystem toybox appPath (.start plainDevice)).2.tree.node
        ["system".toList, "app".toList, "Settings".toList, "Settings.apk".toList] = none := by
  rw [optimizeSystem_plainDevice]
  decide

/-- A regular file that is critical by its path. -/
def Critical (t : Volume) (l : Location) : Prop :=
  RegularFile t l ∧ isSystemCritical (pathOf l) = true

/-- In every run, the critical files survive where the passes select none of
them for removal: none as a font, a resource, a recording, a locale or a
stale file, none below the directories that go, none as a package or an
archive to be packed, and none that stands for the temporary file of an
image or of the boot animation. -/
theorem critical_files_survive (env : Env) (hShell : Documented env.shell) (path : Text)
    (t : Volume) (hKept : ∀ l, Critical t l → ¬ Lost env t l) (l : Location)
    (hCritical : Critical t l) :
    RegularFile (optimizeSystem env path (.start t)).2.tree l := by
  obtain ⟨steps, grown, removed, hCourse⟩ := optimizeSystem_course hShell path t
  exact hCourse.file_kept (hKept l hCritical) hCritical.1

/-- A device whose shell is all it has below the searched directories, and
whose only application is hidden. -/
def quietDevice : Volume where
  entries :=
    [(["system".toList], .dir),
      (["system".toList, "bin".toList], .dir),
      (["system".toList, "bin".toList, "sh".toList],
        .file { content := [127, 69, 76, 70], modified := 0, executable := true }),
      (["system".toList, "app".toList], .dir),
      (["system".toList, "app".toList, ".Settings".toList], .dir),
      (["system".toList, "app".toList, ".Settings".toList, "Settings.apk".toList],
        .file { content := [80, 75, 5, 6], modified := 0, executable := false })]
  cwd := []

def shellPlace : Location := ["system".toList, "bin".toList, "sh".toList]

def settingsPlace : Location :=
  ["system".toList, "app".toList, ".Settings".toList, "Settings.apk".toList]

theorem quietDevice_linkFree : quietDevice.LinkFree := linkFree_of_entries (by decide)

theorem quietDevice_files {l : Location} (h : RegularFile quietDevice l) :
    l = shellPlace ∨ l = settingsPlace := by
  obtain ⟨data, hNode⟩ := h
  have hRoot : l ≠ [] := by
    rintro rfl
    exact nomatch node_root.symm.trans hNode
  have hMem := mem_entries_of_node hRoot hNode
  simp only [quietDevice, List.mem_cons, Prod.mk.injEq, List.not_mem_nil, or_false, reduceCtorEq,
    and_false, false_or] at hMem
  cases hMem with
  | inl hShell => exact .inl hShell.1
  | inr hSettings => exact .inr hSettings.1

/-- No searched directory is above the shell, and those above the hidden
application are not within it. -/
theorem quietDevice_searched : (searchedDirs toybox).all (fun dir =>
    (quietDevice.resolve dir).all fun base =>
      !base.isPrefixOf shellPlace &&
        (!base.isPrefixOf settingsPlace || decide (base.length ≤ 2))) = true := by
  decide

theorem quietDevice_kept {l : Location} (h : RegularFile quietDevice l) :
    ¬ Lost toybox quietDevice l := by
  apply not_lost quietDevice_linkFree
  · decide
  · rintro dir hDir ⟨base, names, hBase, hPlace, hNames⟩
    have hSearched := List.all_eq_true.mp quietDevice_searched dir hDir
    rw [hBase, Option.all_some, Bool.and_eq_true, Bool.or_eq_true] at hSearched
    have hPrefix : base.isPrefixOf l = true := by
      rw [List.isPrefixOf_iff_prefix, hPlace]
      exact List.prefix_append base names
    rcases quietDevice_files h with rfl | rfl
    · rw [hPrefix] at hSearched
      exact nomatch hSearched.1
    · have hShort : base.length ≤ 2 := by
        rw [hPrefix] at hSearched
        exact of_decide_eq_true (hSearched.2.resolve_left fun hSame => nomatch hSame)
      have hName : ".Settings".toList ∈ names := by
        have hDrop : names = settingsPlace.drop base.length := by
          rw [hPlace, List.drop_left]
        have hHidden : ∀ n ≤ 2, ".Settings".toList ∈ settingsPlace.drop n := by decide
        rw [hDrop]
        exact hHidden _ hShort
      exact nomatch (hNames _ hName).2

theorem find_self (needle : Text) : find needle needle = some 0 := by
  cases needle with
  | nil => rfl
  | cons c rest => rw [find, if_pos (List.isPrefixOf_iff_prefix.mpr (List.prefix_refl _))]

theorem critical_path {s : String} {path : Text} (hMem : s ∈ criticalPaths)
    (hPath : path = s.toList) : isSystemCritical path = true := by
  rw [isSystemCritical, Bool.or_eq_true]
  apply Or.inl
  apply List.any_eq_true.mpr
  exact ⟨s, hMem, by rw [hPath, contains, find_self]; rfl⟩

/-- The framework of the plain device is critical and does not survive. -/
theorem critical_file_lost :
    ¬ ∀ (env : Env) (path : Text) (t : Volume) (l : Location), Documented env.shell →
      env.dryRun = false → Critical t l →
        RegularFile (optimizeSystem env path (.start t)).2.tree l := by
  intro hClaim
  have hCritical : Critical plainDevice
      ["system".toList, "framework".toList, "framework.jar".toList] := by
    refine ⟨⟨{ content := [80, 75, 3, 4], modified := 0, executable := false }, ?_⟩, ?_⟩
    · decide
    · apply critical_path (s := "/system/framework/framework.jar")
      · simp [criticalPaths]
      · rfl
  obtain ⟨data, hFile⟩ := hClaim toybox appPath plainDevice _ toyboxShell_documented rfl hCritical
  exact nomatch toybox_plainDevice.1.symm.trans hFile

theorem critical_files_survive_shell :
    RegularFile (optimizeSystem toybox systemPath (.start quietDevice)).2.tree shellPlace := by
  have hCritical : Critical quietDevice shellPlace :=
    ⟨⟨{ content := [127, 69, 76, 70], modified := 0, executable := true }, by decide⟩,
      critical_path (s := "/system/bin/sh") (by simp [criticalPaths]) rfl⟩
  exact critical_files_survive toybox toyboxShell_documented systemPath quietDevice
    (fun l hCritical => quietDevice_kept hCritical.1) shellPlace hCritical

/-- A regular package file below a directory that stands directly in one of
the two application directories and is none of the removable applications. -/
def KeptPackage (t : Volume) (l : Location) : Prop :=
  RegularFile t l ∧ ".apk".toList <:+ pathOf l ∧
    ∃ dir app rest, dir ∈ ["app".toList, "priv-app".toList] ∧ rest ≠ [] ∧
      app ∉ removableApps.map String.toList ∧ l = "system".toList :: dir :: app :: rest

/-- In every run, the packages of the applications that are not removable
stay where the passes select none of them for removal. -/
theorem packages_stay (env : Env) (hShell : Documented env.shell) (path : Text) (t : Volume)
    (hKept : ∀ l, KeptPackage t l → ¬ Lost env t l) (l : Location) (hPackage : KeptPackage t l) :
    RegularFile (optimizeSystem env path (.start t)).2.tree l := by
  obtain ⟨steps, grown, removed, hCourse⟩ := optimizeSystem_course hShell path t
  exact hCourse.file_kept (hKept l hPackage) hPackage.1

theorem packages_stay_hidden :
    RegularFile (optimizeSystem toybox systemPath (.start quietDevice)).2.tree settingsPlace := by
  have hPackage : KeptPackage quietDevice settingsPlace := by
    refine ⟨⟨{ content := [80, 75, 5, 6], modified := 0, executable := false }, ?_⟩, ?_, ?_⟩
    · decide
    · decide
    · refine ⟨"app".toList, ".Settings".toList, ["Settings.apk".toList], ?_, ?_, ?_, rfl⟩
      · decide
      · decide
      · decide +kernel
  exact packages_stay toybox toyboxShell_documented systemPath quietDevice
    (fun l hPackage => quietDevice_kept hPackage.1) settingsPlace hPackage

/-- The package of the settings is compressed away. -/
theorem package_lost :
    ¬ ∀ (env : Env) (path : Text) (t : Volume) (l : Location), Documented env.shell →
      env.dryRun = false → KeptPackage t l →
        RegularFile (optimizeSystem env path (.start t)).2.tree l := by
  intro hClaim
  have hPackage : KeptPackage plainDevice
      ["system".toList, "app".toList, "Settings".toList, "Settings.apk".toList] := by
    refine ⟨⟨{ content := [80, 75, 5, 6], modified := 0, executable := false }, ?_⟩, ?_, ?_⟩
    · decide
    · decide
    · refine ⟨"app".toList, "Settings".toList, ["Settings.apk".toList], ?_, ?_, ?_, rfl⟩
      · decide
      · decide
      · exact settings_stays
  obtain ⟨data, hFile⟩ := hClaim toybox appPath plainDevice _ toyboxShell_documented rfl hPackage
  exact nomatch toybox_plainDevice.2.symm.trans hFile

end SystemOptimizer
