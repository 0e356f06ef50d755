import Gtexswifi.SystemOptimizer.Visits

/-! The size measurement against the sizes of the regular files of the
system. -/
namespace SystemOptimizer

open FileTree

def isRegular (t : Volume) (l : Location) : Bool :=
  match t.node l with
  | some (.file _) => true
  | _ => false

def fileSize (t : Volume) (l : Location) : Nat :=
  match t.node l with
  | some (.file data) => data.content.length
  | _ => 0

/-- The places of the regular files located under the system path. -/
def systemFiles (t : Volume) : List Location :=
  match t.resolve systemPath with
  | none => []
  | some base => (t.entries.map Prod.fst).filter fun l =>
      isRegular t l && (base.isPrefixOf l && decide (l ≠ base))

theorem isRegular_iff {t : Volume} {l : Location} : isRegular t l = true ↔ RegularFile t l := by
  rw [isRegular, RegularFile]
  split
  · next data hNode => exact ⟨fun _ => ⟨data, hNode⟩, fun _ => rfl⟩
  · next hOther =>
    constructor
    · intro h
      cases h
    · rintro ⟨data, hNode⟩
      exact absurd hNode (hOther data)

theorem systemFiles_nodup (fs : FileSystem) : (systemFiles fs.volume).Nodup := by
  rw [systemFiles]
  split
  · exact List.nodup_nil
  · exact fs.distinct.filter _

/-- The measurement ends by itself, and it is the sum of the sizes of the
files located under the system path, with each of them counted once. -/
structure Measures (env : Env) (t : Volume) : Prop where
  ends : ∀ more, scanDirectory env t (pathMax + more) systemPath =
    scanDirectory env t pathMax systemPath
  once : (((scanDirectory env t pathMax systemPath).getD []).map fun file =>
    t.resolve file.path).Perm ((systemFiles t).map some)
  total : calculateTotalSize env t = ((systemFiles t).map (fileSize t)).sum

/-- Each file of the system is at the end of one path of visible names below
the system path, and such paths lead to no other files. -/
structure OnePathEach (t : Volume) : Prop where
  one : ∀ l ∈ systemFiles t, ∃! names, Visit t systemPath names l
  only : ∀ names l, Visit t systemPath names l → l ∈ systemFiles t

section Measures

variable {env : Env} {fs : FileSystem}

/-- What is listed is a visit, and its size is that of the file, cut to the
type of the sizes. -/
theorem visit_of_listed {t : Volume} {dir : Text} {file : FileInfo}
    (h : file ∈ (scanDirectory env t pathMax dir).getD []) :
    ∃ names l, Visit t dir names l ∧ file.path = pathFrom dir names ∧
      t.resolve file.path = some l ∧ file.size = fileSize t l % 2 ^ env.sizeBits := by
  obtain ⟨names, l, data, hVisit, hNode, rfl⟩ := mem_listing_iff.mp h
  refine ⟨names, l, hVisit, rfl, hVisit.leads, ?_⟩
  rw [fileSize, hNode]
  rfl

theorem listed_of_visit (env : Env) {t : Volume} {dir : Text} {names : List Text} {l : Location}
    (h : Visit t dir names l) :
    ∃ file ∈ (scanDirectory env t pathMax dir).getD [], file.path = pathFrom dir names ∧
      t.resolve file.path = some l := by
  obtain ⟨data, hNode⟩ := h.file
  exact ⟨_, mem_listing_iff.mpr ⟨names, l, data, h, hNode, rfl⟩, rfl, h.leads⟩

/-- The listing has each file once exactly if each is visited by one path. -/
theorem listing_locations (env : Env) :
    (((scanDirectory env fs.volume pathMax systemPath).getD []).map fun file =>
      fs.volume.resolve file.path).Perm ((systemFiles fs.volume).map some) ↔
    OnePathEach fs.volume := by
  have hPaths := listing_nodup env fs systemPath pathMax
  constructor
  · intro hPerm
    have hNodup : (((scanDirectory env fs.volume pathMax systemPath).getD []).map fun file =>
        fs.volume.resolve file.path).Nodup :=
      hPerm.nodup_iff.mpr ((systemFiles_nodup fs).map (Option.some_injective _))
    constructor
    · intro l hMem
      obtain ⟨file, hFile, hResolve⟩ :=
        List.mem_map.mp (hPerm.mem_iff.mpr (List.mem_map_of_mem hMem))
      obtain ⟨names, l', hVisit, hPath, hLeads, _⟩ := visit_of_listed hFile
      obtain rfl := Option.some.inj (hResolve.symm.trans hLeads)
      refine ⟨names, hVisit, ?_⟩
      intro names' hVisit'
      obtain ⟨file', hFile', hPath', hLeads'⟩ := listed_of_visit env hVisit'
      obtain rfl := List.inj_on_of_nodup_map hNodup hFile hFile' (hLeads.trans hLeads'.symm)
      exact pathFrom_inj hVisit'.visible hVisit.visible (hPath'.symm.trans hPath)
    · intro names l hVisit
      obtain ⟨file, hFile, _, hLeads⟩ := listed_of_visit env hVisit
      have hMem := hPerm.mem_iff.mp (List.mem_map.mpr ⟨file, hFile, hLeads⟩)
      obtain ⟨l', hMem', hSame⟩ := List.mem_map.mp hMem
      exact Option.some.inj hSame ▸ hMem'
  · intro hEach
    have hNodup : (((scanDirectory env fs.volume pathMax systemPath).getD []).map fun file =>
        fs.volume.resolve file.path).Nodup := by
      refine List.Nodup.map_on ?_ hPaths.of_map
      intro file hFile file' hFile' hSame
      obtain ⟨names, l, hVisit, hPath, hLeads, _⟩ := visit_of_listed hFile
      obtain ⟨names', l', hVisit', hPath', hLeads', _⟩ := visit_of_listed hFile'
      obtain rfl := Option.some.inj (hLeads.symm.trans (hSame.trans hLeads'))
      obtain ⟨_, _, hOne⟩ := hEach.one l (hEach.only names l hVisit)
      have hNames : names = names' := (hOne names hVisit).trans (hOne names' hVisit').symm
      apply List.inj_on_of_nodup_map hPaths hFile hFile'
      rw [hPath, hPath', hNames]
    rw [List.perm_ext_iff_of_nodup hNodup
      ((systemFiles_nodup fs).map (Option.some_injective _))]
    intro place
    constructor
    · intro hMem
      obtain ⟨file, hFile, rfl⟩ := List.mem_map.mp hMem
      obtain ⟨names, l, hVisit, _, hLeads, _⟩ := visit_of_listed hFile
      exact List.mem_map.mpr ⟨l, hEach.only names l hVisit, hLeads.symm⟩
    · intro hMem
      obtain ⟨l, hFile, rfl⟩ := List.mem_map.mp hMem
      obtain ⟨names, hVisit, _⟩ := hEach.one l hFile
      obtain ⟨file, hListed, _, hLeads⟩ := listed_of_visit env hVisit
      exact List.mem_map.mpr ⟨file, hListed, hLeads⟩

theorem sum_mod (sizes : List Nat) (n : Nat) : (sizes.map (· % n)).sum % n = sizes.sum % n := by
  induction sizes with
  | nil => rfl
  | cons size sizes ih =>
      rw [List.map_cons, List.sum_cons, List.sum_cons, Nat.mod_add_mod, Nat.add_mod, ih,
        ← Nat.add_mod]

/-- What the files that the scan finds add up to, without a bound. -/
def scannedSize (env : Env) (t : Volume) : Nat :=
  (((scanDirectory env t pathMax systemPath).getD []).map fun file =>
    (t.resolve file.path).elim 0 (fileSize t)).sum

theorem calculateTotalSize_eq (env : Env) (t : Volume) :
    calculateTotalSize env t = scannedSize env t % 2 ^ env.sizeBits := by
  have hSizes : ((scanDirectory env t pathMax systemPath).getD []).map FileInfo.size =
      (((scanDirectory env t pathMax systemPath).getD []).map fun file =>
        (t.resolve file.path).elim 0 (fileSize t)).map (· % 2 ^ env.sizeBits) := by
    rw [List.map_map]
    apply List.map_congr_left
    intro file hFile
    obtain ⟨names, l, _, _, hLeads, hSize⟩ := visit_of_listed hFile
    rw [hSize, Function.comp_apply, hLeads]
    rfl
  rw [calculateTotalSize, hSizes, sum_mod, scannedSize]

theorem scannedSize_of_perm {t : Volume}
    (h : (((scanDirectory env t pathMax systemPath).getD []).map fun file =>
      t.resolve file.path).Perm ((systemFiles t).map some)) :
    scannedSize env t = ((systemFiles t).map (fileSize t)).sum := by
  let sizeAt (place : Option Location) : Nat := place.elim 0 (fileSize t)
  have hSum := (h.map sizeAt).sum_nat
  rw [List.map_map, List.map_map] at hSum
  exact hSum

/-- A system with one hidden file, and a link to another file. -/
def sampleSystem : FileSystem where
  volume := {
    entries :=
      [(["system".toList], .dir),
        (["system".toList, ".version".toList],
          .file { content := [49, 46, 48, 10], modified := 0, executable := false }),
        (["system".toList, "toolbox".toList],
          .file { content := [127, 69, 76, 70, 1], modified := 0, executable := true }),
        (["system".toList, "ls".toList], .link "toolbox".toList)]
    cwd := [] }
  distinct := by decide
  standing := by decide
  named := by decide

/-- Of nine bytes in two files the measurement counts one file twice and
leaves the other out. -/
theorem sampleSystem_measured :
    ((systemFiles sampleSystem.volume).map (fileSize sampleSystem.volume)).sum = 9 ∧
      calculateTotalSize toybox sampleSystem.volume = 10 := by
  decide +kernel

end Measures

end SystemOptimizer
