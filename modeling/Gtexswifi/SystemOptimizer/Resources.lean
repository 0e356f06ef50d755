import Gtexswifi.SystemOptimizer.Crushing
import Gtexswifi.SystemOptimizer.Locales

/-! Resource pruning: which files `optimizeResources` removes besides those
whose names end in a foreign locale. -/
namespace SystemOptimizer

open FileTree

def keptLanguages : List String := ["en", "es", "fr", "de", "zh", "ja", "ko"]

/-- Without extension the name ends in an underscore and a locale of no kept
language. -/
def endsInForeignLocale (name : Text) : Bool :=
  (stem name).tails.any fun tail =>
    match tail with
    | '_' :: code => isLocale code && !(keptLanguages.map String.toList).contains (languageOf code)
    | _ => false

def ForeignNamed (l : Location) : Prop :=
  ∃ name, l.getLast? = some name ∧ endsInForeignLocale name = true

/-- No regular file is removed but those whose names end in a foreign
locale. -/
def LeavesOthers (env : Env) (t : Volume) : Prop :=
  ∀ l, RegularFile t l → ¬ ForeignNamed l →
    (∀ e ∈ (optimizeResources env (.start t)).2.effects, e ≠ .remove l) ∧
      RegularFile (optimizeResources env (.start t)).2.tree l

/-- A path in whose text more than five characters follow the first
underscore, and no kept language directly, ends with a file whose name ends
in a foreign locale. -/
def UnderscoresAgree (t : Volume) : Prop :=
  ∀ dir ∈ resourceDirs, ∀ names l, Visit t dir names l →
    t.locate (pathFrom dir names) = some l →
    (∀ file : FileInfo, file.path = pathFrom dir names → isForeignResource file = true) →
    ForeignNamed l

/-- A path that the pass chooses by what follows its first underscore. -/
def ChosenForeign (t : Volume) (path : Text) : Prop :=
  ∃ dir ∈ resourceDirs, ∃ names l, Visit t dir names l ∧ path = pathFrom dir names ∧
    ∀ file : FileInfo, file.path = path → isForeignResource file = true

/-- An image in one of the image directories, which no chosen path ends
with, and no chosen path ends with a link on the way to it. -/
def Image (t : Volume) (path : Text) : Prop :=
  ∃ dir ∈ imageDirs, ∃ names m via, Visit t dir names m ∧ path = pathFrom dir names ∧
    contains ".png" path = true ∧ t.Way path via m ∧
    ∀ e ∈ m :: via, ∀ chosen, ChosenForeign t chosen → t.locate chosen ≠ some e

/-- The locations that the images and their temporary files may be written
to. What is written for one directory may be found in a later one. -/
inductive Crushed (t : Volume) : Location → Prop where
  | found {path : Text} {l : Location} : Image t path → crushedAt t path l → Crushed t l
  | again {dir path : Text} {l middle : Location} :
      dir ∈ imageDirs → Listed t dir path → contains ".png" path = true →
      Crushed t middle → t.Leads path middle → crushedAt t path l → Crushed t l

/-- A path that gives an image only once the pass has written one. -/
def CrushedAgain (t : Volume) (path : Text) : Prop :=
  ∃ dir ∈ imageDirs, Listed t dir path ∧ contains ".png" path = true ∧
    ∃ middle, Crushed t middle ∧ t.Leads path middle

/-- No other file stands at the place of the temporary one. -/
def TemporaryFree (t : Volume) (path : Text) : Prop :=
  ∀ l, t.locate (temporary path) = some l → RegularFile t l → ForeignNamed l

def ImagesFree (t : Volume) : Prop := ∀ path, Image t path → TemporaryFree t path

/-- Where images are crushed, no other file stands at the place of a
temporary one. -/
def TemporariesFree (env : Env) (t : Volume) : Prop :=
  (∃ s, (env.shell .whichPngcrush s).1 = true) →
    ImagesFree t ∧ ∀ path, CrushedAgain t path → TemporaryFree t path

section Resources

variable {env : Env} {t : Volume} {run : Run} {l : Location}

theorem isForeignResource_path {file file' : FileInfo} (h : file.path = file'.path) :
    isForeignResource file = isForeignResource file' := by
  rw [isForeignResource, isForeignResource, h]

/-- Where the crushed image stands does not depend on what has been added
since. -/
theorem crushedAt.of_keeps {s : Volume} (hKeeps : s.Keeps t) {path : Text}
    (h : crushedAt s path l) : crushedAt t path l := by
  rcases h with hTemporary | hPlace | hLeads
  · exact .inl (hKeeps.leads hTemporary)
  · exact .inr (.inl (hKeeps.locate hPlace))
  · exact .inr (.inr (hKeeps.leads hLeads))

theorem crushed_of_image {path : Text} (h : Image t path ∨ CrushedAgain t path)
    (hPlace : crushedAt t path l) : Crushed t l := by
  rcases h with hImage | ⟨dir, hDir, hListed, hPNG, middle, hMiddle, hLeads⟩
  · exact .found hImage hPlace
  · exact .again hDir hListed hPNG hMiddle hLeads hPlace

/-- A run that has removed chosen entries writes nowhere. -/
theorem Pruned.moves {dirs : List Text} {choose : FileInfo → Bool} {written lost : Location → Prop}
    (h : Pruned env t dirs choose run) (hLost : ∀ l, AtChosen env t dirs choose l → lost l) :
    Moves written lost (.start t) run := Moves.mono (fun _ => False.elim) hLost h

theorem optimizeResources_eq (run : Run) : (optimizeResources env run).2 =
    (optimizePNGFiles env (prune env resourceDirs isForeignResource run)).2 := by
  rw [optimizeResources, prune]

theorem chosen_iff_foreign {path : Text} :
    Chosen env t resourceDirs isForeignResource path ↔ ChosenForeign t path := by
  constructor
  · rintro ⟨dir, hDir, names, l, data, hVisit, _, rfl, hForeign⟩
    refine ⟨dir, hDir, names, l, hVisit, rfl, ?_⟩
    intro file hPath
    exact (isForeignResource_path hPath).trans hForeign
  · rintro ⟨dir, hDir, names, l, hVisit, rfl, hForeign⟩
    obtain ⟨data, hNode⟩ := hVisit.file
    exact ⟨dir, hDir, names, l, data, hVisit, hNode, rfl, hForeign _ rfl⟩

/-- Where the underscores agree, what is removed has a foreign name. -/
theorem UnderscoresAgree.foreignNamed (hAgree : UnderscoresAgree t)
    (hChosen : AtChosen env t resourceDirs isForeignResource l) (hFile : RegularFile t l) :
    ForeignNamed l := by
  obtain ⟨path, hPath, hLocate⟩ := hChosen
  obtain ⟨dir, hDir, names, l', hVisit, rfl, hForeign⟩ := chosen_iff_foreign.mp hPath
  obtain rfl := hVisit.of_locate hLocate hFile
  exact hAgree dir hDir names l' hVisit hLocate hForeign

/-- What gives an image once the chosen paths are gone gave one before, over
nothing chosen. -/
theorem Pruned.image (h : Pruned env t resourceDirs isForeignResource run)
    (hDone : ∀ path, Chosen env t resourceDirs isForeignResource path → ∀ data,
      run.tree.stat path ≠ some (.file data)) {dir path : Text} (hDir : dir ∈ imageDirs)
    (hListed : Listed run.tree dir path) (hPNG : contains ".png" path = true) {data : FileData}
    (hStat : run.tree.stat path = some (.file data)) : Image t path := by
  obtain ⟨parent, name, hOpened, hName, rfl⟩ := hListed
  obtain ⟨names, hNames, rfl⟩ := hOpened.exists_names
  obtain ⟨via, m, hWay, hFile, _⟩ := stat_eq_way.mp hStat
  have hFree := h.way_unchosen hDone hWay hFile
  have hBefore := h.part.node m _ hFile
  have hWayBefore := h.part.keeps.way hWay (ne_link_of_file hBefore)
  rw [← pathFrom_concat] at hPNG hWayBefore
  rw [← pathFrom_concat]
  refine ⟨dir, hDir, names ++ [name], m, via, ?_, rfl, hPNG, hWayBefore, ?_⟩
  · exact {
      root := h.part.stat hOpened.stat_root
      below := List.append_ne_nil_of_right_ne_nil _ (List.cons_ne_nil _ _)
      visible := List.forall_mem_append.mpr ⟨hNames, List.forall_mem_singleton.mpr hName⟩
      leads := resolve_eq_some.mpr ⟨via, hWayBefore⟩
      file := ⟨data, hBefore⟩ }
  · intro e hMem chosen hChosen hLocate
    exact hFree e hMem ⟨chosen, chosen_iff_foreign.mpr hChosen, hLocate⟩

/-- The images are written at their places, and their temporary files
removed. -/
theorem optimizePNGFiles_moves (hShell : Documented env.shell) {lost : Location → Prop}
    (hLost : (∃ s, (env.shell .whichPngcrush s).1 = true) → ∀ path,
      Image t path ∨ CrushedAgain t path → ∀ l, t.locate (temporary path) = some l → lost l)
    (h : Pruned env t resourceDirs isForeignResource run)
    (hDone : ∀ path, Chosen env t resourceDirs isForeignResource path → ∀ data,
      run.tree.stat path ≠ some (.file data)) :
    Moves (Crushed t) lost run (optimizePNGFiles env run).2 := by
  have hKeeps := h.part.keeps
  refine Moves.foldl ?_ (.refl run)
  intro dir hDir current hCurrent
  rw [forFilesIn]
  split
  · apply hCurrent.forFiles
    intro path hListed data hGives hPNG later hLater hFile
    have hImage : Image t path ∨ CrushedAgain t path := by
      rcases hGives with hStat | ⟨middle, hMiddle, hLeads⟩
      · exact .inl (h.image hDone hDir hListed hPNG hStat)
      · exact .inr ⟨dir, hDir, hListed.of_keeps hKeeps, hPNG, middle, hMiddle,
          hKeeps.leads hLeads⟩
    apply Moves.optimizePNG hShell hLater hFile
    · intro l hPlace
      exact crushed_of_image hImage (hPlace.of_keeps hKeeps)
    · intro hFound l hLocate _
      exact hLost ⟨_, hFound⟩ path hImage l (hKeeps.locate hLocate)
  · exact .refl current

/-- What the pass chooses by underscores it removes, whatever the images do. -/
theorem underscores_of_leaves (hShell : Documented env.shell) (hWet : env.dryRun = false)
    (h : LeavesOthers env t) : UnderscoresAgree t := by
  intro dir hDir names l hVisit hLocate hForeign
  by_contra hName
  obtain ⟨data, hNode⟩ := hVisit.file
  have hChosen : Chosen env t resourceDirs isForeignResource (pathFrom dir names) :=
    ⟨dir, hDir, names, l, data, hVisit, hNode, rfl, hForeign _ rfl⟩
  obtain ⟨hPruned, hDone⟩ := prune_pruned hWet t
  have hGone := (file_pruned_iff hWet hVisit.file).mpr ⟨_, hChosen, hLocate⟩
  have hThere : t.node l ≠ none := by simp [hNode]
  have hRemove := (Removes.gone hPruned hThere hGone).2
  have hImages : Moves (Crushed t) (fun _ => True) _ _ :=
    optimizePNGFiles_moves hShell (fun _ _ _ _ _ => trivial) hPruned hDone
  obtain ⟨more, _, hLog, _⟩ := hImages
  refine (h l hVisit.file hName).1 _ ?_ rfl
  rw [optimizeResources_eq, hLog]
  exact List.mem_append_left _ hRemove

/-- Under the conditions no file is removed but those with foreign names,
whatever the shell does within its documentation. -/
theorem leaves_of_underscores (hShell : Documented env.shell) (hWet : env.dryRun = false)
    (hAgree : UnderscoresAgree t) (hFree : TemporariesFree env t) : LeavesOthers env t := by
  obtain ⟨hPruned, hDone⟩ := prune_pruned hWet t
  let lost (l : Location) : Prop := RegularFile t l → ForeignNamed l
  have hRun : Moves (Crushed t) lost (.start t)
      (prune env resourceDirs isForeignResource (.start t)) :=
    hPruned.moves fun l hChosen hFile => hAgree.foreignNamed hChosen hFile
  have hImages : Moves (Crushed t) lost (prune env resourceDirs isForeignResource (.start t))
      (optimizePNGFiles env (prune env resourceDirs isForeignResource (.start t))).2 := by
    refine optimizePNGFiles_moves hShell ?_ hPruned hDone
    rintro hFound path (hImage | hAgain) l hLocate
    · exact (hFree hFound).1 path hImage l hLocate
    · exact (hFree hFound).2 path hAgain l hLocate
  obtain ⟨effects, hTree, hLog, hWithin⟩ := hRun.trans hImages
  intro l hFile hName
  have hKept : ¬ lost l := fun hLost => hName (hLost hFile)
  rw [optimizeResources_eq, hTree, hLog]
  refine ⟨?_, file_after hWithin hKept hFile⟩
  rintro e hMem rfl
  exact hKept (hWithin _ hMem)

/-- An image is found again after the pruning, at the same place. -/
theorem Image.still {path : Text} (hImage : Image t path)
    (h : Pruned env t resourceDirs isForeignResource run) :
    contains ".png" path = true ∧ (∃ dir ∈ imageDirs, ∃ names m,
      path = pathFrom dir names ∧ Visit run.tree dir names m) ∧
      ∃ parent name, path = entryPath parent name ∧ parent ≠ [] ∧ Visible name ∧
        ∃ l, run.tree.locate path = some l := by
  obtain ⟨dir, hDir, names, m, via, hVisit, rfl, hPNG, hWay, hFree⟩ := hImage
  obtain ⟨data, hNode⟩ := hVisit.file
  have hUnchosen : ∀ e ∈ m :: via, ¬ AtChosen env t resourceDirs isForeignResource e := by
    rintro e hMem ⟨path, hChosen, hLocate⟩
    exact hFree e hMem path (chosen_iff_foreign.mp hChosen) hLocate
  obtain ⟨hStill, hStillWay⟩ := h.way_file hWay hNode hUnchosen
  have hGives := stat_eq_way.mpr ⟨via, m, hStillWay, hStill, rfl⟩
  obtain ⟨parent, name, d, _, _, _, hEntry, hParent, hName, hPlace, _⟩ := hVisit.entry
  refine ⟨hPNG, ⟨dir, hDir, names, m, rfl, ?_⟩, parent, name, hEntry, hParent, hName, ?_⟩
  · exact {
      root := stat_dir_of_below (ne_nil_of_stat hVisit.root) hVisit.below hVisit.visible hGives
      below := hVisit.below
      visible := hVisit.visible
      leads := resolve_eq_some.mpr ⟨via, hStillWay⟩
      file := ⟨data, hStill⟩ }
  · rw [hEntry] at hPlace ⊢
    exact ⟨_, h.locate hParent hName hPlace⟩

/-- On the device where the image is crushed its temporary file is moved, so
that no other file stands there if other files are left alone. -/
theorem temporaryFree_of_crusher {image : Text} {data : FileData}
    (hShell : env.shell = crusher image data) (hWet : env.dryRun = false)
    (hLeaves : LeavesOthers env t) (hImage : Image t image) : TemporaryFree t image := by
  intro l hTemporary hFile
  by_contra hName
  have hAgree : UnderscoresAgree t :=
    underscores_of_leaves (hShell ▸ crusher_documented) hWet hLeaves
  have hPruned : Pruned env t resourceDirs isForeignResource
      (prune env resourceDirs isForeignResource (.start t)) := (prune_pruned hWet t).1
  obtain ⟨hPNG, ⟨dir, hDir, names, m, hPath, hVisit⟩, parent, name, rfl, hParent, hVisible,
    place, hPlace⟩ := hImage.still hPruned
  rw [temporary_entryPath] at hTemporary
  have hStill := hPruned.locate hParent (visible_temporary hVisible) hTemporary
  rw [← temporary_entryPath] at hStill
  have hStanding : RegularFile (prune env resourceDirs isForeignResource (.start t)).tree l := by
    rcases hPruned.same_or_gone l with hSame | ⟨_, hChosen⟩
    · obtain ⟨old, hOld⟩ := hFile
      exact ⟨old, hSame.trans hOld⟩
    · exact absurd (hAgree.foreignNamed hChosen hFile) hName
  have hRemoved := optimizePNGFiles_removes hShell hWet hPlace hStill hStanding hDir hVisit hPath
    hPNG rfl
  rw [← optimizeResources_eq] at hRemoved
  exact (hLeaves l hFile hName).1 _ hRemoved rfl

/-- If no shell makes the pass remove another file, no image is in the way.
The shell that crushes shows it. -/
theorem imagesFree_of_leaves (hWet : env.dryRun = false)
    (h : ∀ shell, Documented shell → LeavesOthers { env with shell := shell } t) :
    ImagesFree t := by
  intro path hImage
  let data : FileData := { content := [], modified := 0, executable := false }
  have hShell : ({ env with shell := crusher path data } : Env).shell = crusher path data := rfl
  exact temporaryFree_of_crusher hShell hWet (h _ crusher_documented) hImage

/-- On every tree, the pass that leaves other files alone is one whose
underscores agree with the names, and if it does so on every device no other
file stands at the place of the temporary one of an image. It does leave
them alone where the underscores agree and, if images are crushed, no other
file stands at the place of a temporary one. -/
theorem leavesOthers_underscores (env : Env) (hShell : Documented env.shell)
    (hWet : env.dryRun = false) (t : Volume) : (LeavesOthers env t → UnderscoresAgree t) ∧
      ((∀ shell, Documented shell → LeavesOthers { env with shell := shell } t) → ImagesFree t) ∧
      (UnderscoresAgree t → TemporariesFree env t → LeavesOthers env t) :=
  ⟨underscores_of_leaves hShell hWet, imagesFree_of_leaves hWet,
    leaves_of_underscores hShell hWet⟩

end Resources

/-- A system with a configuration file. -/
def audioSystem : FileSystem where
  volume := {
    entries :=
      [(["system".toList], .dir),
        (["system".toList, "etc".toList], .dir),
        (["system".toList, "etc".toList, "audio_policy.conf".toList],
          .file { content := [97, 117, 100, 105, 111], modified := 0, executable := false })]
    cwd := [] }
  distinct := by decide
  standing := by decide
  named := by decide

def audioPolicy : Location := ["system".toList, "etc".toList, "audio_policy.conf".toList]

/-- The file of the example is removed for an underscore in the name of a
directory. -/
theorem audioPolicy_removed :
    (optimizeResources toybox (.start audioSystem.volume)).2.tree.node audioPolicy = none := by
  decide +kernel

/-- The configuration file goes, though its name ends in no locale. -/
theorem other_file_removed :
    ¬ ∀ (env : Env) (t : Volume), Documented env.shell → env.dryRun = false →
      LeavesOthers env t := by
  intro hClaim
  have hFile : RegularFile audioSystem.volume audioPolicy :=
    ⟨{ content := [97, 117, 100, 105, 111], modified := 0, executable := false }, by decide⟩
  have hName : ¬ ForeignNamed audioPolicy := by
    rintro ⟨name, hLast, hForeign⟩
    obtain rfl : "audio_policy.conf".toList = name := Option.some.inj hLast
    exact absurd hForeign (by decide)
  obtain ⟨_, data, hStill⟩ :=
    hClaim toybox audioSystem.volume toyboxShell_documented rfl audioPolicy hFile hName
  cases audioPolicy_removed.symm.trans hStill

theorem leavesOthers_audio :
    (LeavesOthers toybox audioSystem.volume → UnderscoresAgree audioSystem.volume) ∧
      ((∀ shell, Documented shell →
        LeavesOthers { toybox with shell := shell } audioSystem.volume) →
          ImagesFree audioSystem.volume) ∧
      (UnderscoresAgree audioSystem.volume → TemporariesFree toybox audioSystem.volume →
        LeavesOthers toybox audioSystem.volume) :=
  leavesOthers_underscores toybox toyboxShell_documented rfl audioSystem.volume

end SystemOptimizer
