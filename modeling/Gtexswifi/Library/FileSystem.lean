import Mathlib.Data.List.Induction
import Mathlib.Data.List.Nodup
import Mathlib.Data.List.Perm.Basic
import Gtexswifi.Library.Ways

/-! File systems: volumes where each place has one inode and every entry
stands in a directory, and the orders in which their directories may list
the same entries. -/
namespace FileTree

/-- A volume with one inode for each place, where every entry stands in a
directory. -/
structure FileSystem where
  volume : Volume
  distinct : (volume.entries.map Prod.fst).Nodup
  standing : ∀ entry ∈ volume.entries,
    entry.1 ≠ [] ∧ volume.node entry.1.dropLast = some .dir
  named : ∀ entry ∈ volume.entries, ∀ name ∈ entry.1, Plain name

theorem FileSystem.names_nodup (fs : FileSystem) (l : Location) :
    (fs.volume.names l).Nodup := by
  have hNames : fs.volume.names l = ((fs.volume.entries.map Prod.fst).filterMap fun place =>
      if place.dropLast = l then place.getLast? else none).filter properName := by
    rw [Volume.names, List.filterMap_map]
    rfl
  rw [hNames]
  apply List.Nodup.filter
  refine List.Nodup.filterMap ?_ fs.distinct
  intro place place' name hName hName'
  have hPlace : ∀ place : Location, name ∈ (if place.dropLast = l then place.getLast? else none) →
      place = l ++ [name] := by
    intro place h
    split at h
    · next hParent => rw [← hParent, List.dropLast_append_getLast? name h]
    · cases h
  rw [hPlace place hName, hPlace place' hName']

section FileSystem

variable (fs : FileSystem) {l : Location} {inode : Inode}

theorem lookup_of_mem {entries : List (Location × Inode)}
    (hDistinct : (entries.map Prod.fst).Nodup) (h : (l, inode) ∈ entries) :
    entries.lookup l = some inode := by
  induction entries with
  | nil => cases h
  | cons entry entries ih =>
      obtain ⟨place, other⟩ := entry
      rw [List.map_cons, List.nodup_cons] at hDistinct
      rw [List.lookup_cons]
      cases List.mem_cons.mp h with
      | inl hSame =>
          obtain ⟨rfl, rfl⟩ := Prod.mk.inj hSame
          rw [beq_self_eq_true]
      | inr hRest =>
          have hOther : (l == place) = false := by
            apply beq_eq_false_iff_ne.mpr
            rintro rfl
            exact hDistinct.1 (List.mem_map.mpr ⟨_, hRest, rfl⟩)
          rw [hOther]
          exact ih hDistinct.2 hRest

theorem FileSystem.node_eq_some (hRoot : l ≠ []) :
    fs.volume.node l = some inode ↔ (l, inode) ∈ fs.volume.entries := by
  refine ⟨mem_entries_of_node hRoot, ?_⟩
  intro h
  rw [Volume.node, if_neg hRoot]
  exact lookup_of_mem fs.distinct h

/-- Whatever stands somewhere has only directories above it. -/
theorem FileSystem.dir_above (hNode : fs.volume.node l ≠ none) {above : Location}
    (hAbove : above <+: l) (hNe : above ≠ l) : fs.volume.node above = some .dir := by
  induction l using List.reverseRecOn with
  | nil => exact absurd (List.prefix_nil.mp hAbove) hNe
  | append_singleton parent name ih =>
      obtain ⟨inode, hInode⟩ := Option.ne_none_iff_exists'.mp hNode
      have hRoot : parent ++ [name] ≠ [] :=
        List.append_ne_nil_of_right_ne_nil _ (List.cons_ne_nil _ _)
      have hParent := (fs.standing _ (mem_entries_of_node hRoot hInode)).2
      rw [List.dropLast_concat] at hParent
      have hPrefix : above <+: parent :=
        (List.prefix_concat_iff.mp hAbove).resolve_left fun hSame => hNe hSame
      by_cases hSame : above = parent
      · exact hSame ▸ hParent
      · have hSome : fs.volume.node parent ≠ none := by simp [hParent]
        exact ih hSome hPrefix hSame

/-- The same files in both, in whatever order directories list them. -/
structure SameFiles (t s : Volume) : Prop where
  cwd : s.cwd = t.cwd
  node : ∀ l, s.node l = t.node l

theorem SameFiles.symm {t s : Volume} (h : SameFiles t s) : SameFiles s t :=
  ⟨h.cwd.symm, fun l => (h.node l).symm⟩

/-- Of two volumes with the same files each is a part of the other. -/
theorem SameFiles.part {t s : Volume} (h : SameFiles t s) : s.PartOf t :=
  ⟨h.cwd, fun l _ hNode => (h.node l).symm.trans hNode⟩

theorem SameFiles.keeps {t s : Volume} (h : SameFiles t s) : t.Keeps s where
  cwd := h.cwd
  dir l hDir := (h.node l).trans hDir
  link l _ hLink := (h.node l).trans hLink

/-- The same file system with its entries in another order. -/
def FileSystem.reorder (entries : List (Location × Inode))
    (h : entries.Perm fs.volume.entries) : FileSystem where
  volume := { fs.volume with entries := entries }
  distinct := (h.map Prod.fst).nodup_iff.mpr fs.distinct
  standing := by
    intro entry hMem
    obtain ⟨hRoot, hParent⟩ := fs.standing entry (h.mem_iff.mp hMem)
    refine ⟨hRoot, ?_⟩
    by_cases hTop : entry.1.dropLast = []
    · rw [hTop]
      exact node_root
    · rw [Volume.node, if_neg hTop]
      apply lookup_of_mem ((h.map Prod.fst).nodup_iff.mpr fs.distinct)
      exact h.mem_iff.mpr (mem_entries_of_node hTop hParent)
  named entry hMem := fs.named entry (h.mem_iff.mp hMem)

theorem FileSystem.reorder_same {entries : List (Location × Inode)}
    (h : entries.Perm fs.volume.entries) : SameFiles fs.volume (fs.reorder entries h).volume where
  cwd := rfl
  node l := by
    by_cases hRoot : l = []
    · rw [hRoot, node_root, node_root]
    · apply Option.ext
      intro inode
      rw [FileSystem.node_eq_some _ hRoot, FileSystem.node_eq_some _ hRoot]
      exact h.mem_iff

open Classical in
/-- The same file system with some places before all others. -/
noncomputable def FileSystem.first (places : Location → Prop) : FileSystem :=
  fs.reorder
    (fs.volume.entries.filter (fun entry => places entry.1) ++
      fs.volume.entries.filter (fun entry => !decide (places entry.1)))
    (List.filter_append_perm (fun entry => decide (places entry.1)) fs.volume.entries)

theorem FileSystem.first_same (places : Location → Prop) :
    SameFiles fs.volume (fs.first places).volume :=
  fs.reorder_same _

/-- A directory with one place among the first lists that place's name
first. -/
theorem FileSystem.names_first {places : Location → Prop} {name : Text}
    (hProper : properName name = true) (hPlace : places (l ++ [name]))
    (hNode : fs.volume.node (l ++ [name]) ≠ none)
    (hOnly : ∀ other, places (l ++ [other]) → other = name) :
    ∃ rest, (fs.first places).volume.names l = name :: rest := by
  classical
  let listed (entry : Location × Inode) : Option Text :=
    if entry.1.dropLast = l then entry.1.getLast? else none
  have hListed : ∀ entry other, listed entry = some other → entry.1 = l ++ [other] := by
    intro entry other h
    dsimp only [listed] at h
    split at h
    · next hParent => rw [← hParent, List.dropLast_append_getLast? other h]
    · cases h
  let front := ((fs.volume.entries.filter fun entry => places entry.1).filterMap
    listed).filter properName
  have hFront : ∀ other ∈ front, other = name := by
    intro other hMem
    obtain ⟨entry, hEntry, hOther⟩ := List.mem_filterMap.mp (List.mem_filter.mp hMem).1
    apply hOnly
    rw [← hListed entry other hOther]
    exact of_decide_eq_true (List.mem_filter.mp hEntry).2
  have hMem : name ∈ front := by
    obtain ⟨inode, hInode⟩ := Option.ne_none_iff_exists'.mp hNode
    have hRoot : l ++ [name] ≠ [] :=
      List.append_ne_nil_of_right_ne_nil _ (List.cons_ne_nil _ _)
    have hEntry : (l ++ [name], inode) ∈ fs.volume.entries.filter fun entry => places entry.1 :=
      List.mem_filter.mpr ⟨mem_entries_of_node hRoot hInode, decide_eq_true hPlace⟩
    refine List.mem_filter.mpr ⟨List.mem_filterMap.mpr ⟨_, hEntry, ?_⟩, hProper⟩
    simp only [listed, List.dropLast_concat, List.getLast?_concat, if_true]
  have hNames : ∃ later, (fs.first places).volume.names l = front ++ later := by
    refine ⟨((fs.volume.entries.filter fun entry => !decide (places entry.1)).filterMap
      listed).filter properName, ?_⟩
    dsimp only [FileSystem.first, FileSystem.reorder, Volume.names]
    rw [List.filterMap_append, List.filter_append]
  obtain ⟨later, hNames⟩ := hNames
  rw [hNames]
  cases hCases : front with
  | nil =>
      rw [hCases] at hMem
      cases hMem
  | cons head rest =>
      have hHead : head = name := by
        apply hFront
        rw [hCases]
        exact List.mem_cons_self
      exact ⟨rest ++ later, by rw [hHead, List.cons_append]⟩

end FileSystem

end FileTree
