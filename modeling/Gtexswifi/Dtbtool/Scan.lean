import Gtexswifi.Dtbtool.ChipInfo
import Mathlib.Data.Set.Insert

/-! The first half of `dtbtool`: the files of the input directory, in the
order of `readdir`, go into the list of chips. -/
namespace Dtbtool

def rcSuccess : Int := 0

def rcError : Int := -1

/-- A page size that the command line admits, with the default if it names
none. -/
structure PageSize where
  size : Nat
  pos : 0 < size
  le : size ≤ 2 ^ 20

/-- `PAGE_SIZE_DEF`. -/
def PageSize.default : PageSize := ⟨2048, by decide, by decide⟩

/-- An entry of the input directory: the lines that `dtc` prints for it, and
its contents. -/
structure DirEntry where
  regular : Bool
  name : List Char
  dts : List (List Char)
  content : List UInt8

/-- A regular file with a name that ends in `.dtb` and has more to it. -/
def DirEntry.isDtb (entry : DirEntry) : Bool :=
  entry.regular ∧ 4 < entry.name.length ∧
    entry.name.drop (entry.name.length - 4) = ".dtb".toList

/-- The fields of the first node of a file, to which the nodes of the file
point. -/
structure Master where
  dtbSize : Nat
  dtbFile : List UInt8
  wroteDtb : Bool
  masterOffset : Nat

/-- What the loop over the directory has built. -/
structure Scan where
  chipList : List ChipInfo
  masters : Nat → Master
  dtbCount : Nat
  rc : Int

def Scan.init : Scan where
  chipList := []
  masters _ := ⟨0, [], false, 0⟩
  dtbCount := 0
  rc := rcSuccess

/-- The size of a file with its padding, which is a page for a file that
needs none. -/
def paddedSize (page : PageSize) (stSize : Nat) : Nat :=
  stSize + (page.size - stSize % page.size)

/-- The first node of a file that is kept. -/
def DirEntry.master (page : PageSize) (entry : DirEntry) : Master where
  dtbSize := paddedSize page entry.content.length % 2 ^ 32
  dtbFile := entry.content
  wroteDtb := false
  masterOffset := 0

/-- `chip_add` for a further entry of the file `ref`. A duplicate is left
out. -/
def addEntry (ref : Nat) (s : Scan) (id : ChipId) : Scan :=
  match chipAdd ⟨id, ref⟩ s.chipList with
  | none => { s with rc := rcError }
  | some chipList => { s with chipList := chipList, dtbCount := s.dtbCount + 1, rc := rcSuccess }

/-- The body of the loop. A file without entries, an empty file and a file
whose first entry is a duplicate are skipped. -/
def addFile (page : PageSize) (s : Scan) (ref : Nat) (entry : DirEntry) : Scan :=
  if entry.isDtb = true then
    match getChipInfo entry.dts with
    | [] => s
    | chip :: tNext =>
        if entry.content.length = 0 then s
        else
          match chipAdd ⟨chip, ref⟩ s.chipList with
          | none => { s with rc := rcError }
          | some chipList =>
              tNext.foldl (addEntry ref)
                ⟨chipList, Function.update s.masters ref (entry.master page), s.dtbCount + 1,
                  rcSuccess⟩
  else s

/-- The loop from the entry at a place on. -/
def scanFrom (page : PageSize) : Scan → Nat → List DirEntry → Scan
  | s, _, [] => s
  | s, ref, entry :: rest => scanFrom page (addFile page s ref entry) (ref + 1) rest

def scan (page : PageSize) (dir : List DirEntry) : Scan := scanFrom page Scan.init 0 dir

/-- The entries that a directory entry declares, as a file that is read and
is not empty. -/
def DirEntry.declares (entry : DirEntry) : List ChipId :=
  if entry.isDtb = true ∧ entry.content.length ≠ 0 then declaredIds entry.dts else []

/-- The keys of the master table. -/
def Scan.keys (s : Scan) : List ChipId := s.chipList.map ChipInfo.id

/-- The list is sorted without duplicates, and counted. -/
structure Scan.WellFormed (s : Scan) : Prop where
  sorted : SortedTable.Sorted ChipInfo.rank s.chipList
  counted : s.dtbCount = s.chipList.length

theorem Scan.init_wellFormed : Scan.init.WellFormed where
  sorted := List.Pairwise.nil
  counted := rfl

theorem rank_mem_iff {chipList : List ChipInfo} {id : ChipId} :
    id.rank ∈ chipList.map ChipInfo.rank ↔ id ∈ chipList.map ChipInfo.id := by
  constructor
  · intro h
    obtain ⟨x, hMem, hRank⟩ := List.mem_map.mp h
    exact List.mem_map.mpr ⟨x, hMem, ChipId.rank_inj.mp hRank⟩
  · intro h
    obtain ⟨x, hMem, hId⟩ := List.mem_map.mp h
    exact List.mem_map.mpr ⟨x, hMem, congrArg ChipId.rank hId⟩

/-- `chip_add` fails exactly for a key of the list. -/
theorem chipAdd_eq_none {s : Scan} (h : s.WellFormed) {c : ChipInfo} :
    chipAdd c s.chipList = none ↔ c.id ∈ s.keys := by
  rw [chipAdd_eq, SortedTable.insertUnique_eq_none h.sorted]
  exact rank_mem_iff

theorem mem_chipAdd {c : ChipInfo} {chipList chipList' : List ChipInfo}
    (h : chipAdd c chipList = some chipList') {x : ChipInfo} :
    x ∈ chipList' ↔ x = c ∨ x ∈ chipList :=
  SortedTable.mem_insertUnique ((chipAdd_eq c chipList).symm.trans h)

theorem length_chipAdd {c : ChipInfo} {chipList chipList' : List ChipInfo}
    (h : chipAdd c chipList = some chipList') : chipList'.length = chipList.length + 1 :=
  SortedTable.length_insertUnique ((chipAdd_eq c chipList).symm.trans h)

theorem sorted_chipAdd {c : ChipInfo} {chipList chipList' : List ChipInfo}
    (hSorted : SortedTable.Sorted ChipInfo.rank chipList)
    (h : chipAdd c chipList = some chipList') : SortedTable.Sorted ChipInfo.rank chipList' :=
  SortedTable.sorted_insertUnique hSorted ((chipAdd_eq c chipList).symm.trans h)

/-- The identifiers of the table are those before, and the new one. -/
theorem mem_keys_chipAdd {c : ChipInfo} {chipList chipList' : List ChipInfo}
    (h : chipAdd c chipList = some chipList') {id : ChipId} :
    id ∈ chipList'.map ChipInfo.id ↔ id = c.id ∨ id ∈ chipList.map ChipInfo.id := by
  have hMem (x : ChipInfo) := mem_chipAdd h (x := x)
  simp only [List.mem_map, hMem]
  constructor
  · rintro ⟨x, rfl | hx, rfl⟩
    · exact Or.inl rfl
    · exact Or.inr ⟨x, hx, rfl⟩
  · rintro (rfl | ⟨x, hx, rfl⟩)
    · exact ⟨c, Or.inl rfl, rfl⟩
    · exact ⟨x, Or.inr hx, rfl⟩

/-- A further entry is in the list afterwards, as a duplicate or by its own
node. -/
theorem addEntry_spec {s : Scan} (h : s.WellFormed) (ref : Nat) (id : ChipId) :
    (addEntry ref s id).WellFormed ∧ (addEntry ref s id).masters = s.masters ∧
      (∀ x, x ∈ (addEntry ref s id).chipList → x = ⟨id, ref⟩ ∨ x ∈ s.chipList) ∧
      ∀ x, x ∈ (addEntry ref s id).keys ↔ x = id ∨ x ∈ s.keys := by
  rw [addEntry]
  cases hAdd : chipAdd ⟨id, ref⟩ s.chipList with
  | none =>
      have hDuplicate : id ∈ s.keys := (chipAdd_eq_none h).mp hAdd
      refine ⟨⟨h.sorted, h.counted⟩, rfl, fun x hx => Or.inr hx, fun x => ?_⟩
      constructor
      · exact Or.inr
      · rintro (rfl | hx)
        · exact hDuplicate
        · exact hx
  | some chipList =>
      refine ⟨⟨sorted_chipAdd h.sorted hAdd, ?_⟩, rfl, fun x => (mem_chipAdd hAdd).mp,
        fun x => mem_keys_chipAdd hAdd⟩
      rw [length_chipAdd hAdd, h.counted]

/-- By induction on the entries of a file. The table gets those that are not
in it, with the file as their master. -/
theorem addEntries_spec {s : Scan} (h : s.WellFormed) (ref : Nat) (ids : List ChipId) :
    (ids.foldl (addEntry ref) s).WellFormed ∧
      (ids.foldl (addEntry ref) s).masters = s.masters ∧
      (∀ x, x ∈ (ids.foldl (addEntry ref) s).chipList →
        (x.id ∈ ids ∧ x.master = ref) ∨ x ∈ s.chipList) ∧
      ∀ x, x ∈ (ids.foldl (addEntry ref) s).keys ↔ x ∈ ids ∨ x ∈ s.keys := by
  induction ids generalizing s with
  | nil => exact ⟨h, rfl, fun x hx => Or.inr hx, fun x => by simp⟩
  | cons id rest ih =>
      obtain ⟨hFirst, hMasters, hNodes, hKeys⟩ := addEntry_spec h ref id
      obtain ⟨hAll, hMasters', hNodes', hKeys'⟩ := ih hFirst
      refine ⟨hAll, hMasters'.trans hMasters, fun x hx => ?_, fun x => ?_⟩
      · rcases hNodes' x hx with ⟨hId, hRef⟩ | hOld
        · exact Or.inl ⟨List.mem_cons_of_mem id hId, hRef⟩
        · rcases hNodes x hOld with rfl | hOld
          · exact Or.inl ⟨List.mem_cons_self, rfl⟩
          · exact Or.inr hOld
      · rw [List.foldl_cons, hKeys', hKeys, List.mem_cons, or_left_comm, or_assoc]

/-- What the loop does with a file: it has nothing to declare, its first
entry is a key already, or all its entries become keys. -/
inductive FileStep (page : PageSize) (s : Scan) (ref : Nat) (entry : DirEntry) : Scan → Prop
  | nothing (hDeclares : entry.declares = []) : FileStep page s ref entry s
  | skipped {id : ChipId} (hFirst : entry.declares.head? = some id) (hKey : id ∈ s.keys) :
      FileStep page s ref entry { s with rc := rcError }
  | kept {id : ChipId} {s' : Scan} (hFirst : entry.declares.head? = some id) (hKey : id ∉ s.keys)
      (hWellFormed : s'.WellFormed)
      (hMasters : s'.masters = Function.update s.masters ref (entry.master page))
      (hNodes : ∀ x ∈ s'.chipList, (x.id ∈ entry.declares ∧ x.master = ref) ∨ x ∈ s.chipList)
      (hKeys : ∀ x, x ∈ s'.keys ↔ x ∈ entry.declares ∨ x ∈ s.keys) : FileStep page s ref entry s'

/-- What one file does to the scan, said once: it is passed over as a
double, or its entries are added. -/
theorem addFile_step {s : Scan} (h : s.WellFormed) (page : PageSize) (ref : Nat)
    (entry : DirEntry) : FileStep page s ref entry (addFile page s ref entry) := by
  rw [addFile]
  by_cases hDtb : entry.isDtb = true
  · rw [if_pos hDtb]
    have hPerm := perm_getChipInfo entry.dts
    have hHead := head_getChipInfo entry.dts
    cases hChain : getChipInfo entry.dts with
    | nil =>
        rw [hChain] at hPerm
        apply FileStep.nothing
        rw [DirEntry.declares, List.nil_perm.mp hPerm, ite_self]
    | cons chip tNext =>
        rw [hChain] at hPerm hHead
        by_cases hEmpty : entry.content.length = 0
        · simp only [if_pos hEmpty]
          exact FileStep.nothing (if_neg fun hBoth => hBoth.2 hEmpty)
        · have hDeclares : entry.declares = declaredIds entry.dts := if_pos ⟨hDtb, hEmpty⟩
          have hFirst : entry.declares.head? = some chip := by
            rw [hDeclares, ← hHead]
            rfl
          simp only [if_neg hEmpty]
          cases hAdd : chipAdd ⟨chip, ref⟩ s.chipList with
          | none => exact FileStep.skipped hFirst ((chipAdd_eq_none h).mp hAdd)
          | some chipList =>
              have hKey : chip ∉ s.keys := fun hMem => by
                rw [(chipAdd_eq_none h).mpr hMem] at hAdd
                cases hAdd
              have hAdded : Scan.WellFormed ⟨chipList, Function.update s.masters ref
                  (entry.master page), s.dtbCount + 1, rcSuccess⟩ := by
                refine ⟨sorted_chipAdd h.sorted hAdd, ?_⟩
                rw [length_chipAdd hAdd, h.counted]
              obtain ⟨hWellFormed, hMasters, hNodes, hKeys⟩ := addEntries_spec hAdded ref tNext
              have hMem (x : ChipId) : x ∈ entry.declares ↔ x = chip ∨ x ∈ tNext := by
                rw [hDeclares, ← hPerm.mem_iff, List.mem_cons]
              refine FileStep.kept hFirst hKey hWellFormed hMasters (fun x hx => ?_) fun x => ?_
              · rcases hNodes x hx with ⟨hId, hRef⟩ | hOld
                · exact Or.inl ⟨(hMem _).mpr (Or.inr hId), hRef⟩
                · rcases (mem_chipAdd hAdd).mp hOld with rfl | hOld
                  · exact Or.inl ⟨(hMem _).mpr (Or.inl rfl), rfl⟩
                  · exact Or.inr hOld
              · rw [hKeys, hMem, or_assoc, or_left_comm]
                exact or_congr_right (mem_keys_chipAdd hAdd)
  · rw [if_neg hDtb]
    exact FileStep.nothing (if_neg fun hBoth => hDtb hBoth.1)

/-- The files that the loop keeps, behind those kept so far: the ones that
declare an entry, and a first one that no file kept before them declares. -/
def keptFiles (kept : List DirEntry) : List DirEntry → List DirEntry
  | [] => kept
  | entry :: rest =>
      match entry.declares.head? with
      | none => keptFiles kept rest
      | some id =>
          if id ∈ kept.flatMap DirEntry.declares then keptFiles kept rest
          else keptFiles (kept ++ [entry]) rest

/-- The identifiers in the table are those of the files that are kept, by
induction on the rest of the directory. -/
theorem scanFrom_keys {page : PageSize} {s : Scan} (h : s.WellFormed) (kept : List DirEntry)
    (hKept : ∀ id, id ∈ s.keys ↔ id ∈ kept.flatMap DirEntry.declares) (ref : Nat)
    (dir : List DirEntry) :
    (scanFrom page s ref dir).WellFormed ∧
      ∀ id, id ∈ (scanFrom page s ref dir).keys ↔
        id ∈ (keptFiles kept dir).flatMap DirEntry.declares := by
  induction dir generalizing s kept ref with
  | nil => exact ⟨h, hKept⟩
  | cons entry rest ih =>
      rw [scanFrom, keptFiles]
      have hStep := addFile_step h page ref entry
      generalize addFile page s ref entry = s' at hStep
      cases hStep with
      | nothing hDeclares =>
          simp only [hDeclares, List.head?_nil]
          exact ih h kept hKept _
      | skipped hFirst hKey =>
          simp only [hFirst, if_pos ((hKept _).mp hKey)]
          have hWellFormed : Scan.WellFormed { s with rc := rcError } := ⟨h.sorted, h.counted⟩
          exact ih hWellFormed kept hKept _
      | kept hFirst hKey hWellFormed hMasters hNodes hKeys =>
          simp only [hFirst, if_neg (mt (hKept _).mpr hKey)]
          refine ih hWellFormed _ (fun id => ?_) _
          rw [hKeys, hKept, List.flatMap_append, List.mem_append, List.flatMap_singleton, or_comm]

/-- Whatever the directory holds, the table is sorted and counted correctly. -/
theorem scan_wellFormed (page : PageSize) (dir : List DirEntry) : (scan page dir).WellFormed :=
  (scanFrom_keys Scan.init_wellFormed [] (fun _ => Iff.rfl) 0 dir).1

/-- The master table has the entries of the files that are kept. -/
theorem mem_keys_scan (page : PageSize) (dir : List DirEntry) (id : ChipId) :
    id ∈ (scan page dir).keys ↔ ∃ entry ∈ keptFiles [] dir, id ∈ entry.declares := by
  rw [← List.mem_flatMap]
  exact (scanFrom_keys Scan.init_wellFormed [] (fun _ => Iff.rfl) 0 dir).2 id

/-- The nodes of the list belong to the files they point to, whose first
nodes are as the loop has set them. -/
def Scan.Describes (page : PageSize) (s : Scan) (dir : List DirEntry) : Prop :=
  ∀ x ∈ s.chipList, ∃ entry, dir[x.master]? = some entry ∧ x.id ∈ entry.declares ∧
    s.masters x.master = entry.master page

/-- Rows that refer to files of a directory refer to those of a longer one. -/
theorem Scan.Describes.append {page : PageSize} {s : Scan} {dir : List DirEntry}
    (h : s.Describes page dir) (more : List DirEntry) : s.Describes page (dir ++ more) := by
  intro x hx
  obtain ⟨entry, hAt, hRest⟩ := h x hx
  have hBound := (List.getElem?_eq_some_iff.mp hAt).1
  exact ⟨entry, (List.getElem?_append_left hBound).trans hAt, hRest⟩

/-- The rows of one more file refer to it, with the size that it has. -/
theorem addFile_describes {page : PageSize} {s : Scan} (h : s.WellFormed) {dir : List DirEntry}
    (hDescribes : s.Describes page dir) (entry : DirEntry) :
    (addFile page s dir.length entry).WellFormed ∧
      (addFile page s dir.length entry).Describes page (dir ++ [entry]) := by
  have hStep := addFile_step h page dir.length entry
  generalize addFile page s dir.length entry = s' at hStep
  cases hStep with
  | nothing hDeclares => exact ⟨h, hDescribes.append [entry]⟩
  | skipped hFirst hKey => exact ⟨⟨h.sorted, h.counted⟩, hDescribes.append [entry]⟩
  | kept hFirst hKey hWellFormed hMasters hNodes hKeys =>
      refine ⟨hWellFormed, fun x hx => ?_⟩
      rw [hMasters]
      rcases hNodes x hx with ⟨hId, hRef⟩ | hOld
      · refine ⟨entry, ?_, hId, ?_⟩
        · rw [hRef]
          exact List.getElem?_concat_length
        · rw [hRef, Function.update_self]
      · obtain ⟨old, hAt, hId, hMaster⟩ := hDescribes x hOld
        have hBound := (List.getElem?_eq_some_iff.mp hAt).1
        refine ⟨old, (List.getElem?_append_left hBound).trans hAt, hId, ?_⟩
        rw [Function.update_of_ne (Nat.ne_of_lt hBound), hMaster]

theorem scanFrom_describes {page : PageSize} {s : Scan} (h : s.WellFormed) {dir : List DirEntry}
    (hDescribes : s.Describes page dir) (rest : List DirEntry) :
    (scanFrom page s dir.length rest).Describes page (dir ++ rest) := by
  induction rest generalizing s dir with
  | nil => exact hDescribes.append []
  | cons entry rest ih =>
      obtain ⟨hWellFormed, hNext⟩ := addFile_describes h hDescribes entry
      have hRest := ih hWellFormed hNext
      rw [List.length_append, List.append_assoc] at hRest
      exact hRest

/-- Each row of the table refers to a file of the directory that declares
its identifier. -/
theorem scan_describes (page : PageSize) (dir : List DirEntry) :
    (scan page dir).Describes page dir := by
  have hInit : Scan.init.Describes page [] := fun x hx => absurd hx List.not_mem_nil
  exact scanFrom_describes Scan.init_wellFormed hInit dir

/-- The union of what the files declare. -/
def declaredBy (dir : List DirEntry) : Set ChipId :=
  {id | ∃ entry ∈ dir, id ∈ entry.declares}

/-- The set of keys in the master table of a directory. -/
def tableKeys (page : PageSize) (dir : List DirEntry) : Set ChipId :=
  {id | id ∈ (scan page dir).keys}

/-- The loop adds some of the files to those it has kept, in the order in
which it meets them. -/
theorem keptFiles_eq_append (kept dir : List DirEntry) :
    ∃ chosen, keptFiles kept dir = kept ++ chosen ∧ chosen.Sublist dir := by
  induction dir generalizing kept with
  | nil => exact ⟨[], (List.append_nil kept).symm, List.Sublist.refl []⟩
  | cons entry rest ih =>
      have hSkip : ∃ chosen, keptFiles kept rest = kept ++ chosen ∧
          chosen.Sublist (entry :: rest) := by
        obtain ⟨chosen, hKept, hSublist⟩ := ih kept
        exact ⟨chosen, hKept, hSublist.cons entry⟩
      rw [keptFiles]
      split
      · exact hSkip
      · split_ifs
        · exact hSkip
        · obtain ⟨chosen, hKept, hSublist⟩ := ih (kept ++ [entry])
          refine ⟨entry :: chosen, ?_, hSublist.cons_cons entry⟩
          rw [hKept, List.append_assoc, List.singleton_append]

theorem subset_keptFiles {kept dir : List DirEntry} {entry : DirEntry} (h : entry ∈ kept) :
    entry ∈ keptFiles kept dir := by
  obtain ⟨chosen, hKept, -⟩ := keptFiles_eq_append kept dir
  rw [hKept]
  exact List.mem_append_left chosen h

/-- The two parts of a directory are gone through one after the other. -/
theorem keptFiles_append (kept front back : List DirEntry) :
    keptFiles kept (front ++ back) = keptFiles (keptFiles kept front) back := by
  induction front generalizing kept with
  | nil => rfl
  | cons entry rest ih =>
      rw [List.cons_append, keptFiles, keptFiles]
      split
      · exact ih kept
      · split_ifs
        · exact ih kept
        · exact ih (kept ++ [entry])

/-- The first entry of a file is never lost. -/
theorem first_mem_keptFiles {kept dir : List DirEntry} {entry : DirEntry} (h : entry ∈ dir)
    {id : ChipId} (hFirst : entry.declares.head? = some id) :
    ∃ keptEntry ∈ keptFiles kept dir, id ∈ keptEntry.declares := by
  induction dir generalizing kept with
  | nil => cases h
  | cons first rest ih =>
      rw [keptFiles]
      cases h with
      | head =>
          simp only [hFirst]
          split_ifs with hMem
          · obtain ⟨keptEntry, hKept, hId⟩ := List.mem_flatMap.mp hMem
            exact ⟨keptEntry, subset_keptFiles hKept, hId⟩
          · exact ⟨entry, subset_keptFiles (by simp), List.mem_of_head? hFirst⟩
      | tail _ hRest =>
          split
          · exact ih hRest
          · split_ifs
            · exact ih hRest
            · exact ih hRest

/-- The first identifier of a file is in the table, be it from this file or
from the one that hides it. -/
theorem first_mem_keys (page : PageSize) {dir : List DirEntry} {entry : DirEntry}
    (h : entry ∈ dir) {id : ChipId} (hFirst : entry.declares.head? = some id) :
    id ∈ (scan page dir).keys :=
  (mem_keys_scan page dir id).mpr (first_mem_keptFiles h hFirst)

theorem tableKeys_subset (page : PageSize) (dir : List DirEntry) :
    tableKeys page dir ⊆ declaredBy dir := by
  intro id hKey
  obtain ⟨entry, hKept, hId⟩ := (mem_keys_scan page dir id).mp hKey
  obtain ⟨chosen, hChosen, hSublist⟩ := keptFiles_eq_append [] dir
  rw [hChosen, List.nil_append] at hKept
  exact ⟨entry, hSublist.mem hKept, hId⟩

/-- What is declared does not depend on the order of the directory. -/
theorem declaredBy_perm {dir order : List DirEntry} (h : order.Perm dir) :
    declaredBy order = declaredBy dir := by
  ext id
  exact exists_congr fun entry => and_congr_left fun _ => h.mem_iff

/-- The first entry of `later` is none of those of `earlier`, which then
does not make the loop skip it. -/
def Admits (earlier later : DirEntry) : Prop :=
  ∀ first, later.declares.head? = some first → first ∉ earlier.declares

/-- Files that do not declare an entry, each with a first entry that those
in front of it do not declare either, but which declare the first entry of
every file that has the entry. -/
structure Hides (dir cover : List DirEntry) (id : ChipId) : Prop where
  declared : id ∈ declaredBy dir
  among : ∃ rest, (cover ++ rest).Perm dir
  admitted : cover.Pairwise Admits
  silent : ∀ entry ∈ cover, id ∉ entry.declares
  covers : ∀ entry ∈ dir, id ∈ entry.declares → ∀ first, entry.declares.head? = some first →
    ∃ other ∈ cover, first ∈ other.declares

/-- Files that admit one another are all kept if they come first. -/
theorem mem_keptFiles_of_admitted {kept cover : List DirEntry} (h : (kept ++ cover).Pairwise Admits)
    {entry : DirEntry} (hMem : entry ∈ kept ++ cover) (hDeclares : entry.declares ≠ []) :
    entry ∈ keptFiles kept cover := by
  induction cover generalizing kept with
  | nil => rwa [List.append_nil] at hMem
  | cons next rest ih =>
      rw [keptFiles]
      cases hFirst : next.declares.head? with
      | none =>
          have hNothing : next.declares = [] := List.head?_eq_none_iff.mp hFirst
          refine ih (h.sublist ((List.sublist_cons_self next rest).append_left kept)) ?_
          rcases List.mem_append.mp hMem with hKept | hCover
          · exact List.mem_append_left rest hKept
          · rcases List.mem_cons.mp hCover with rfl | hRest
            · exact absurd hNothing hDeclares
            · exact List.mem_append_right kept hRest
      | some first =>
          have hFresh : first ∉ kept.flatMap DirEntry.declares := by
            intro hDeclared
            obtain ⟨earlier, hEarlier, hIn⟩ := List.mem_flatMap.mp hDeclared
            have hAdmits := (List.pairwise_append.mp h).2.2 earlier hEarlier next
              List.mem_cons_self
            exact hAdmits first hFirst hIn
          rw [List.append_cons] at h hMem
          simp only [if_neg hFresh]
          exact ih h hMem

/-- Once the first entries of all files with an entry are declared by files
that are kept, no file with the entry is kept any more. -/
theorem not_mem_keptFiles_of_covered {kept dir : List DirEntry} {id : ChipId}
    (hSilent : ∀ entry ∈ kept, id ∉ entry.declares)
    (hCovers : ∀ entry ∈ dir, id ∈ entry.declares → ∀ first, entry.declares.head? = some first →
      first ∈ kept.flatMap DirEntry.declares) :
    ∀ entry ∈ keptFiles kept dir, id ∉ entry.declares := by
  induction dir generalizing kept with
  | nil => exact hSilent
  | cons entry rest ih =>
      have hRest := fun other hOther => hCovers other (List.mem_cons_of_mem entry hOther)
      rw [keptFiles]
      split
      · exact ih hSilent hRest
      · next first hFirst =>
          split_ifs with hSkipped
          · exact ih hSilent hRest
          · have hWithout : id ∉ entry.declares := fun hId =>
              hSkipped (hCovers entry List.mem_cons_self hId first hFirst)
            refine ih (fun other hOther => ?_) fun other hOther hId first' hFirst' => ?_
            · rcases List.mem_append.mp hOther with hOld | hNew
              · exact hSilent other hOld
              · rwa [List.mem_singleton.mp hNew]
            · rw [List.flatMap_append]
              exact List.mem_append_left _ (hRest other hOther hId first' hFirst')

/-- The files that the loop keeps admit one another. -/
theorem pairwise_keptFiles {kept dir : List DirEntry} (h : kept.Pairwise Admits) :
    (keptFiles kept dir).Pairwise Admits := by
  induction dir generalizing kept with
  | nil => exact h
  | cons entry rest ih =>
      rw [keptFiles]
      split
      · exact ih h
      · next first hFirst =>
          split_ifs with hSkipped
          · exact ih h
          · refine ih (List.pairwise_append.mpr ⟨h, List.pairwise_singleton _ _, ?_⟩)
            intro earlier hEarlier later hLater first' hFirst' hIn
            obtain rfl := List.mem_singleton.mp hLater
            obtain rfl := Option.some.inj (hFirst.symm.trans hFirst')
            exact hSkipped (List.mem_flatMap.mpr ⟨earlier, hEarlier, hIn⟩)

/-- An entry is lost in the order in which the files that hide it come
first. -/
theorem Hides.exists_order {dir cover : List DirEntry} {id : ChipId} (h : Hides dir cover id)
    (page : PageSize) : ∃ order, order.Perm dir ∧ id ∉ tableKeys page order := by
  obtain ⟨rest, hPerm⟩ := h.among
  refine ⟨cover ++ rest, hPerm, fun hKey => ?_⟩
  obtain ⟨entry, hKept, hId⟩ := (mem_keys_scan page (cover ++ rest) id).mp hKey
  obtain ⟨chosen, hChosen, hSublist⟩ := keptFiles_eq_append [] cover
  rw [List.nil_append] at hChosen
  rw [keptFiles_append, hChosen] at hKept
  refine not_mem_keptFiles_of_covered (fun other hOther => h.silent other (hSublist.mem hOther))
    (fun other hOther hHas first hFirst => ?_) entry hKept hId
  have hMem : other ∈ dir := hPerm.mem_iff.mp (List.mem_append_right cover hOther)
  obtain ⟨other', hCover, hIn⟩ := h.covers other hMem hHas first hFirst
  refine List.mem_flatMap.mpr ⟨other', ?_, hIn⟩
  rw [← hChosen]
  have hFirsts : ([] ++ cover).Pairwise Admits := h.admitted
  exact mem_keptFiles_of_admitted hFirsts hCover (List.ne_nil_of_mem hIn)

/-- The files that are kept in an order hide every entry that it loses. -/
theorem hides_of_lost (page : PageSize) {dir order : List DirEntry} (hPerm : order.Perm dir)
    {id : ChipId} (hDeclared : id ∈ declaredBy dir) (hLost : id ∉ tableKeys page order) :
    Hides dir (keptFiles [] order) id := by
  obtain ⟨chosen, hChosen, hSublist⟩ := keptFiles_eq_append [] order
  rw [List.nil_append] at hChosen
  obtain ⟨rest, hRest⟩ := hSublist.exists_perm_append
  constructor
  · exact hDeclared
  · rw [hChosen]
    exact ⟨rest, hRest.symm.trans hPerm⟩
  · exact pairwise_keptFiles List.Pairwise.nil
  · exact fun entry hKept hId => hLost ((mem_keys_scan page order id).mpr ⟨entry, hKept, hId⟩)
  · exact fun entry hMem _ first hFirst => first_mem_keptFiles (hPerm.mem_iff.mpr hMem) hFirst

/-- No entry of the file that comes first is lost. -/
theorem declares_subset_tableKeys (page : PageSize) {entry : DirEntry} {rest : List DirEntry}
    {id : ChipId} (h : id ∈ entry.declares) : id ∈ tableKeys page (entry :: rest) := by
  refine (mem_keys_scan page (entry :: rest) id).mpr ⟨entry, ?_, h⟩
  rw [keptFiles]
  split
  · next hNothing =>
      rw [List.head?_eq_none_iff.mp hNothing] at h
      cases h
  · exact subset_keptFiles List.mem_cons_self

/-- The table has all declared entries in every order exactly if it is the
same in every order. -/
theorem tableKeys_eq_declaredBy_iff (page : PageSize) (dir : List DirEntry) :
    (∀ order, order.Perm dir → tableKeys page order = declaredBy dir) ↔
      ∀ order order', order.Perm dir → order'.Perm dir →
        tableKeys page order = tableKeys page order' := by
  constructor
  · intro hAll order order' hPerm hPerm'
    rw [hAll order hPerm, hAll order' hPerm']
  · intro hSame order hPerm
    apply Set.Subset.antisymm
    · rw [← declaredBy_perm hPerm]
      exact tableKeys_subset page order
    · rintro id ⟨entry, hMem, hId⟩
      obtain ⟨front, back, rfl⟩ := List.append_of_mem hMem
      rw [hSame order (entry :: (front ++ back)) hPerm List.perm_middle.symm]
      exact declares_subset_tableKeys page hId

/-- Every order of the files gives exactly the declared entries, and with
them one and the same table, unless there are files that hide an entry. -/
theorem no_board_lost_iff (page : PageSize) (dir : List DirEntry) :
    ((∀ order, order.Perm dir → tableKeys page order = declaredBy dir) ↔
        ¬∃ cover id, Hides dir cover id) ∧
      ((∀ order order', order.Perm dir → order'.Perm dir →
          tableKeys page order = tableKeys page order') ↔ ¬∃ cover id, Hides dir cover id) := by
  have hUnion : (∀ order, order.Perm dir → tableKeys page order = declaredBy dir) ↔
      ¬∃ cover id, Hides dir cover id := by
    constructor
    · rintro hAll ⟨cover, id, hHides⟩
      obtain ⟨order, hPerm, hLost⟩ := hHides.exists_order page
      rw [hAll order hPerm] at hLost
      exact hLost hHides.declared
    · intro hNone order hPerm
      apply Set.Subset.antisymm
      · rw [← declaredBy_perm hPerm]
        exact tableKeys_subset page order
      · intro id hDeclared
        by_contra hLost
        exact hNone ⟨_, id, hides_of_lost page hPerm hDeclared hLost⟩
  exact ⟨hUnion, (tableKeys_eq_declaredBy_iff page dir).symm.trans hUnion⟩

/-- The file `name` with one byte and one line of `dtc`. -/
def dtbOf (name line : String) : DirEntry where
  regular := true
  name := name.toList
  dts := [line.toList]
  content := [0]

def boardOne : DirEntry := dtbOf "one.dtb" "sprd,sc-id = <0x1 0x0 0x0>;"

def boardBoth : DirEntry := dtbOf "both.dtb" "sprd,sc-id = <0x1 0x0 0x0 0x2 0x0 0x0>;"

/-- The second entry of `both.dtb` is lost when `one.dtb` comes first, and
only then. -/
theorem board_lost :
    tableKeys .default [boardOne, boardBoth] = {⟨1, 0, 0⟩} ∧
      tableKeys .default [boardBoth, boardOne] = {⟨1, 0, 0⟩, ⟨2, 0, 0⟩} ∧
      ¬∀ page dir order, order.Perm dir → tableKeys page order = declaredBy dir := by
  have hOne : boardOne.declares = [⟨1, 0, 0⟩] := by decide +kernel
  have hBoth : boardBoth.declares = [⟨1, 0, 0⟩, ⟨2, 0, 0⟩] := by decide +kernel
  have hLost : tableKeys .default [boardOne, boardBoth] = {⟨1, 0, 0⟩} := by
    ext id
    refine (mem_keys_scan .default _ id).trans ?_
    simp [keptFiles, hOne, hBoth]
  have hFull : tableKeys .default [boardBoth, boardOne] = {⟨1, 0, 0⟩, ⟨2, 0, 0⟩} := by
    ext id
    refine (mem_keys_scan .default _ id).trans ?_
    simp [keptFiles, hOne, hBoth]
  refine ⟨hLost, hFull, fun hAll => ?_⟩
  have hSame := hAll .default [boardOne, boardBoth] _ (List.Perm.refl _)
  have hDeclared : (⟨2, 0, 0⟩ : ChipId) ∈ declaredBy [boardOne, boardBoth] :=
    ⟨boardBoth, by simp, by simp [hBoth]⟩
  rw [← hSame, hLost] at hDeclared
  exact absurd (Set.mem_singleton_iff.mp hDeclared) (by decide)

end Dtbtool
