import Gtexswifi.Bluetooth.Assignments

/-! The walks over the tables of the adapters. The last row of marlin2 and
of sr2351 has no name, so that a walk ends there. The table of marlin is
without such a row. -/
namespace Bluetooth

open Conf

/-- The names that are looked up while a file is loaded. -/
def Conf.lookedUp (file : List UInt8) : List (List UInt8) :=
  (pieces file).filterMap fun piece => (assignment piece).map Prod.fst

/-- A table in which some row has no name. -/
def Conf.Ended (tab : List ConfEntry) : Prop := ∃ entry ∈ tab, entry.confEntry = none

instance (tab : List ConfEntry) : Decidable (Ended tab) := inferInstanceAs (Decidable (∃ _ ∈ _, _))

/-- The table of `get_pskey_size`, which sr2351 does without. -/
def AdapterModule.sizeTable : AdapterModule → Option (List ConfEntry)
  | marlin => some Marlin.marlinTable
  | marlin2 => some Marlin.marlin2Table
  | sr2351 => none

/-- Loading a file, no lookup of a name leaves the table. -/
def LookupsInside (longBits : Nat) (m : AdapterModule) (file : List UInt8) : Prop :=
  ∀ (device : Device) (mem : Nat → UInt8),
    vndLoadConf longBits m.adapter (some file) device mem ≠ none

/-- The loop of `get_pskey_size` does not leave the table. -/
def SizeLoopInside (m : AdapterModule) : Prop :=
  ∀ tab ∈ m.sizeTable, Marlin.getPskeySize tab ≠ none

variable {tab : List ConfEntry}

/-- A walk leaves a table if no row ends it and no row has the name. -/
theorem lookup_overrun_iff (name : List UInt8) (tab : List ConfEntry) :
    lookup name tab = .overrun ↔ ¬Ended tab ∧ some name ∉ tab.map (·.confEntry) := by
  induction tab with
  | nil => simp [lookup, Ended]
  | cons entry tab ih =>
      rw [lookup]
      cases hEntry : entry.confEntry with
      | none =>
          have hEnded : Ended (entry :: tab) := ⟨entry, List.mem_cons_self, hEntry⟩
          simp [hEnded]
      | some confEntry =>
          have hMore : Ended (entry :: tab) ↔ Ended tab := by simp [Ended, hEntry]
          by_cases hName : confEntry = name
          · simp [hEntry, hName]
          · have hOther : ¬name = confEntry := fun h => hName h.symm
            simp [hEntry, hName, hOther, hMore, ih]

/-- The sum over the rows leaves the table exactly if no row without a name
ends it. -/
theorem getPskeySize_eq_none_iff (tab : List ConfEntry) :
    Marlin.getPskeySize tab = none ↔ ¬Ended tab := by
  induction tab with
  | nil => simp [Marlin.getPskeySize, Ended]
  | cons entry tab ih =>
      rw [Marlin.getPskeySize]
      by_cases hEntry : entry.confEntry = none
      · have hEnded : Ended (entry :: tab) := ⟨entry, List.mem_cons_self, hEntry⟩
        simp [hEntry, hEnded]
      · have hMore : Ended (entry :: tab) ↔ Ended tab := by simp [Ended, hEntry]
        simp [hEntry, hMore, ih]

/-- The tables that end are those of marlin2 and sr2351. -/
theorem AdapterModule.ended_iff (m : AdapterModule) : Ended m.adapter.tab ↔ m ≠ .marlin := by
  cases m <;> decide +kernel

/-- The lookups stay inside a table that ends, or if they find every name. -/
theorem lookupsInside_iff (longBits : Nat) (m : AdapterModule) (file : List UInt8) :
    LookupsInside longBits m file ↔
      m ≠ .marlin ∨ ∀ name ∈ lookedUp file, some name ∈ m.adapter.tab.map (·.confEntry) := by
  have hNone (device : Device) (mem : Nat → UInt8) :
      vndLoadConf longBits m.adapter (some file) device mem = none ↔
        ∃ name ∈ lookedUp file, lookup name m.adapter.tab = .overrun := by
    rw [vndLoadConf, Option.map_eq_none_iff, loadLines_eq]
    exact loadPieces_eq_none_iff longBits m.adapter.tab (pieces file) mem
  have hDevice : Device := ⟨none, false, []⟩
  calc LookupsInside longBits m file
      ↔ ¬∃ name ∈ lookedUp file, lookup name m.adapter.tab = .overrun :=
        ⟨fun hInside hOverrun => hInside hDevice (fun _ => 0) ((hNone _ _).mpr hOverrun),
          fun hInside device mem hOverrun => hInside ((hNone device mem).mp hOverrun)⟩
    _ ↔ _ := by
        simp only [lookup_overrun_iff, AdapterModule.ended_iff, not_exists, not_and,
          Classical.not_not]
        exact ⟨fun h => Classical.or_iff_not_imp_left.mpr fun hm name hName =>
            h name hName (Classical.not_not.mp hm),
          fun h name hName hm => h.resolve_left (fun hNot => hNot hm) name hName⟩

/-- Of the adapters only marlin has a table that is not ended. -/
theorem sizeLoopInside_iff (m : AdapterModule) : SizeLoopInside m ↔ m ≠ .marlin := by
  have hInside (tab : List ConfEntry) : Marlin.getPskeySize tab ≠ none ↔ Ended tab :=
    (getPskeySize_eq_none_iff tab).not_left
  cases m with
  | marlin =>
      have hEnded : Ended Marlin.marlinTable ↔ _ := AdapterModule.ended_iff .marlin
      simp [SizeLoopInside, AdapterModule.sizeTable, hInside, hEnded]
  | marlin2 =>
      have hEnded : Ended Marlin.marlin2Table ↔ _ := AdapterModule.ended_iff .marlin2
      simp [SizeLoopInside, AdapterModule.sizeTable, hInside, hEnded]
  | sr2351 => simp [SizeLoopInside, AdapterModule.sizeTable]

/-- Both walks stay inside their table for marlin2 and sr2351. For marlin
the size loop always leaves it, and a lookup does for a name that is no
row's. -/
theorem walks_inside_iff (longBits : Nat) (m : AdapterModule) (file : List UInt8) :
    (LookupsInside longBits m file ∧ SizeLoopInside m ↔ m ≠ .marlin) ∧
      (LookupsInside longBits m file ↔
        m ≠ .marlin ∨ ∀ name ∈ lookedUp file, some name ∈ m.adapter.tab.map (·.confEntry)) := by
  have hLookups := lookupsInside_iff longBits m file
  refine ⟨?_, hLookups⟩
  rw [hLookups, sizeLoopInside_iff]
  exact ⟨And.right, fun hm => ⟨Or.inl hm, hm⟩⟩

/-- A file with one unknown name. -/
def unknownName : List UInt8 := Numerals.ascii "unknown=1\n"

/-- Both walks over the table of marlin leave it, the lookup for a name that
it does not have. -/
theorem marlin_walks_leave :
    ¬LookupsInside 32 .marlin unknownName ∧ ¬SizeLoopInside .marlin := by
  have hNames : lookedUp unknownName = [Numerals.ascii "unknown"] := by decide +kernel
  have hUnknown : some (Numerals.ascii "unknown") ∉
      AdapterModule.marlin.adapter.tab.map (·.confEntry) := by decide +kernel
  rw [lookupsInside_iff, sizeLoopInside_iff, hNames]
  simpa using hUnknown

end Bluetooth
