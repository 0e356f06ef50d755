import Gtexswifi.Bluetooth.ConfLines
import Gtexswifi.Bluetooth.Marlin

/-! The preload functions put on the wire what the configuration file
assigns. -/
namespace Bluetooth.Marlin

open Conf Numerals

/-- The bytes of a row. -/
def extent (entry : ConfEntry) : Nat := entry.len.toNat * entry.size

/-- What holds of each row: its elements have one of the sizes that
`parse_number` writes. -/
def WellFormed (entry : ConfEntry) : Prop :=
  0 < entry.len ∧ (entry.size = 1 ∨ entry.size = 2 ∨ entry.size = 4)

instance (entry : ConfEntry) : Decidable (WellFormed entry) := inferInstanceAs (Decidable (_ ∧ _))

/-- The rows that are sent have elements of one, two or four bytes, and room
for at least one. -/
theorem rows_wellFormed : ∀ entry ∈ rows, WellFormed entry := by decide

theorem rows_disjoint : rows.Pairwise fun a b => a.buf + extent a ≤ b.buf := by decide +kernel

/-- The names of the rows hold no delimiter, so that each is one token of
its line. -/
theorem rows_plain : ∀ entry ∈ pskeyCmdRow :: rows, ∀ name ∈ entry.confEntry, PlainName name := by
  decide +kernel

theorem rows_names : ((pskeyCmdRow :: rows).map (·.confEntry)).Nodup := by decide +kernel

/-- The rows lie one behind the other, without a gap. -/
theorem rows_packed : ∀ k < rows.length, ∀ entry ∈ rows[k]?,
    entry.buf = 4 + ((rows.take k).map extent).sum := by decide +kernel

/-- The stores of the preload functions follow the rows. -/
theorem puts_rows : puts.map (fun field => (offsetOf field.item, elementSize field.item,
    field.count, field.width.size)) =
      rows.map fun entry => (entry.buf, entry.size, entry.len.toNat, entry.size) := by
  decide +kernel

/-- The tables of the two chips have the same rows, and end differently:
with a row without a name, or with none. -/
theorem Chip.tab_eq (chip : Chip) : ∃ ending, chip.adapter.tab = (pskeyCmdRow :: rows) ++ ending ∧
    ∀ entry ∈ ending, entry.confEntry = none := by
  cases chip with
  | marlin => exact ⟨[], (List.append_nil _).symm, fun entry h => absurd h List.not_mem_nil⟩
  | marlin2 => exact ⟨[⟨none, 0, 0, 0⟩], rfl, fun entry h => by rw [List.mem_singleton.mp h]⟩

/-- A row is found under its name, if it is the first one with it. -/
theorem lookup_append {front : List ConfEntry} {entry : ConfEntry} {name : List UInt8}
    (hEntry : entry.confEntry = some name)
    (hFront : ∀ other ∈ front, ∃ otherName, other.confEntry = some otherName ∧ otherName ≠ name)
    (rest : List ConfEntry) : lookup name (front ++ entry :: rest) = .found entry := by
  induction front with
  | nil =>
      rw [List.nil_append, lookup, hEntry]
      exact if_pos rfl
  | cons other front ih =>
      obtain ⟨otherName, hOther, hNe⟩ := hFront other List.mem_cons_self
      rw [List.cons_append, lookup, hOther]
      dsimp only
      rw [if_neg hNe, ih fun x hx => hFront x (List.mem_cons_of_mem other hx)]

/-- Each of the rows has a name. The row without one is the end of the
table. -/
theorem rows_named : ∀ entry ∈ pskeyCmdRow :: rows, entry.confEntry ≠ none := by decide

variable {chip : Chip}

/-- Every name of the table is the name of a row that is found under it. -/
theorem exists_row {name : List UInt8} (hKnown : some name ∈ chip.adapter.tab.map (·.confEntry)) :
    ∃ entry ∈ pskeyCmdRow :: rows, entry.confEntry = some name ∧
      lookup name chip.adapter.tab = .found entry := by
  obtain ⟨ending, hTab, hEnding⟩ := chip.tab_eq
  obtain ⟨entry, hMem, hEntry⟩ := List.mem_map.mp hKnown
  rw [hTab] at hMem
  rcases List.mem_append.mp hMem with hRow | hEnd
  · refine ⟨entry, hRow, hEntry, ?_⟩
    obtain ⟨front, back, hSplit⟩ := List.append_of_mem hRow
    rw [hTab, hSplit, List.append_assoc, List.cons_append]
    apply lookup_append hEntry
    intro other hOther
    have hOtherRow : other ∈ pskeyCmdRow :: rows := by
      rw [hSplit]
      exact List.mem_append_left _ hOther
    obtain ⟨otherName, hName⟩ := Option.ne_none_iff_exists'.mp (rows_named other hOtherRow)
    refine ⟨otherName, hName, ?_⟩
    rintro rfl
    have hNodup := rows_names
    rw [hSplit, List.map_append, List.map_cons] at hNodup
    have hDisjoint := List.disjoint_of_nodup_append hNodup
    apply hDisjoint (List.mem_map.mpr ⟨other, hOther, hName⟩)
    rw [hEntry]
    exact List.mem_cons_self
  · rw [hEnding entry hEnd] at hEntry
    cases hEntry

theorem line_plain (line : ConfLine chip.adapter.tab) : PlainName line.name := by
  obtain ⟨entry, hRow, hEntry, _⟩ := exists_row line.known
  exact rows_plain entry hRow line.name hEntry

/-- The structure holds what the lines assign. -/
def Holds (lines : List (ConfLine chip.adapter.tab)) (mem : Nat → UInt8) : Prop :=
  ∀ entry ∈ rows, ∀ name, entry.confEntry = some name → ∀ j < entry.len.toNat,
    Bytes.fetch mem (entry.buf + j * entry.size) entry.size =
      Radix.encode entry.size (assigned lines name j)

/-- A structure of zeros holds what a file without lines assigns. -/
theorem holds_zero : Holds ([] : List (ConfLine chip.adapter.tab)) fun _ => 0 := by
  intro entry _ name _ j _
  have hNone : assigned ([] : List (ConfLine chip.adapter.tab)) name j = 0 := rfl
  rw [hNone, Radix.encode_zero_right, Bytes.fetch]
  apply List.ext_getElem
  · simp
  · intro i _ _
    simp [Radix.Digit.ofNat]

/-- Neither row reaches into the other. -/
def Apart (a b : ConfEntry) : Prop := a.buf + extent a ≤ b.buf ∨ b.buf + extent b ≤ a.buf

theorem rows_apart {a b : ConfEntry} (ha : a ∈ rows) (hb : b ∈ rows) (hNe : a ≠ b) :
    Apart a b := by
  have hSymm : Std.Symm Apart := ⟨fun _ _ h => h.symm⟩
  have hPairwise : rows.Pairwise Apart := rows_disjoint.imp fun h => Or.inl h
  exact hPairwise.forall ha hb hNe

/-- An element lies in its row. -/
theorem element_le_extent (entry : ConfEntry) {j : Nat} (hj : j < entry.len.toNat) :
    j * entry.size + entry.size ≤ extent entry := by
  rw [← Nat.succ_mul]
  exact Nat.mul_le_mul_right _ hj

theorem rows_eq_of_name {a b : ConfEntry} (ha : a ∈ pskeyCmdRow :: rows)
    (hb : b ∈ pskeyCmdRow :: rows) (hName : a.confEntry = b.confEntry) : a = b :=
  List.inj_on_of_nodup_map rows_names ha hb hName

/-- The values of a line are stored in its row, as far as there is room. -/
theorem parseNumber_row {longBits : Nat} (hLong : 32 ≤ longBits) {entry : ConfEntry}
    (hForm : WellFormed entry) (values : List Numeral) (mem : Nat → UInt8) :
    parseNumber longBits (valuesText values) entry.buf entry.len entry.size mem =
      Bytes.store mem entry.buf ((values.take entry.len.toNat).map fun n =>
        Radix.encode entry.size n.value).flatten := by
  have hPos := hForm.1
  have hRow := parseNumber_valuesText hLong values entry.buf hForm.2
    (show 0 < entry.len.toNat by omega) mem
  rwa [Int.toNat_of_nonneg (by omega)] at hRow

/-- An element takes the value of the line, if there is one. -/
theorem fetch_parseNumber {longBits : Nat} (hLong : 32 ≤ longBits) {entry : ConfEntry}
    (hForm : WellFormed entry) (values : List Numeral) (mem : Nat → UInt8) {j : Nat}
    (hj : j < entry.len.toNat) :
    Bytes.fetch (parseNumber longBits (valuesText values) entry.buf entry.len entry.size mem)
        (entry.buf + j * entry.size) entry.size =
      ((values.map fun n => Radix.encode entry.size n.value).getD j
        (Bytes.fetch mem (entry.buf + j * entry.size) entry.size)) := by
  rw [parseNumber_row hLong hForm, Bytes.fetch_store_array]
  · rw [List.getD_eq_getElem?_getD, List.getD_eq_getElem?_getD, List.map_take,
      List.getElem?_take_of_lt hj]
  · intro element hElement
    obtain ⟨n, _, rfl⟩ := List.mem_map.mp hElement
    exact Radix.length_encode _ _

/-- Other rows stay as they are. -/
theorem fetch_parseNumber_of_apart {longBits : Nat} (hLong : 32 ≤ longBits) {entry other : ConfEntry}
    (hForm : WellFormed entry) (hApart : Apart entry other) (values : List Numeral)
    (mem : Nat → UInt8) {j : Nat} (hj : j < other.len.toNat) :
    Bytes.fetch (parseNumber longBits (valuesText values) entry.buf entry.len entry.size mem)
        (other.buf + j * other.size) other.size =
      Bytes.fetch mem (other.buf + j * other.size) other.size := by
  have hInside := element_le_extent other hj
  rw [parseNumber_row hLong hForm]
  apply Bytes.fetch_store_of_disjoint
  have hLength : ((values.take entry.len.toNat).map fun n =>
      (Radix.encode entry.size n.value : List UInt8)).flatten.length ≤ extent entry := by
    rw [List.length_flatten, List.map_map]
    have hSame : (List.length ∘ fun n : Numeral => (Radix.encode entry.size n.value : List UInt8)) =
        fun _ => entry.size := by
      funext n
      exact Radix.length_encode _ _
    rw [hSame, List.map_const', List.sum_replicate_nat, List.length_take]
    exact Nat.mul_le_mul_right _ (Nat.min_le_left _ _)
  rcases hApart with hBefore | hBehind
  · exact Or.inr (by omega)
  · exact Or.inl (by omega)

/-- A line is loaded, and the structure holds what it assigns. -/
theorem loadLine_holds {longBits : Nat} (hLong : 32 ≤ longBits)
    (before : List (ConfLine chip.adapter.tab)) (line : ConfLine chip.adapter.tab)
    (mem : Nat → UInt8) (hHolds : Holds before mem) :
    ∃ next, loadLine longBits chip.adapter.tab line.text mem = some next ∧
      Holds (before ++ [line]) next := by
  obtain ⟨entry, hRow, hEntry, hLookup⟩ := exists_row line.known
  refine ⟨_, by rw [loadLine_text longBits line (line_plain line), hLookup], ?_⟩
  intro other hOther name hName j hj
  rw [assigned_append]
  rcases List.mem_cons.mp hRow with rfl | hMem
  · have hNe : line.name ≠ name := by
      rintro rfl
      have hSame := rows_eq_of_name hRow (List.mem_cons_of_mem _ hOther) (hEntry.trans hName.symm)
      have hFirst := rows_names
      rw [List.map_cons, List.nodup_cons] at hFirst
      exact hFirst.1 (List.mem_map.mpr ⟨other, hOther, by rw [← hSame]⟩)
    rw [if_neg hNe, parseNumber]
    have hSize : pskeyCmdRow.size = 0 := rfl
    rw [hSize, parseValues_of_size_zero]
    exact hHolds other hOther name hName j hj
  · have hForm := rows_wellFormed entry hMem
    by_cases hSame : entry = other
    · subst hSame
      obtain rfl := Option.some.inj (hEntry.symm.trans hName)
      rw [if_pos rfl, fetch_parseNumber hLong hForm line.values mem hj,
        hHolds entry hMem line.name hName j hj]
      by_cases hValue : j < line.values.length
      · simp [hValue]
      · simp [hValue]
    · have hNe : line.name ≠ name := by
        rintro rfl
        exact hSame (rows_eq_of_name hRow (List.mem_cons_of_mem _ hOther) (hEntry.trans hName.symm))
      rw [if_neg hNe, fetch_parseNumber_of_apart hLong hForm (rows_apart hMem hOther hSame) _ mem hj]
      exact hHolds other hOther name hName j hj

/-- What the code puts in the place of values from the file: the address, a
bit of the features, and in marlin2 the member that stands for the DSP log. -/
def Overridden (chip : Chip) (name : List UInt8) (j : Nat) : Prop :=
  name = ascii Item.deviceAddr.name ∨ (name = ascii Item.featureSet.name ∧ j = 6) ∨
    (chip = .marlin2 ∧ name = ascii Item.shareMemoTxPacketNumAddr.name)

/-- The structure that the stores of the preload function read. -/
def sent (longBits : Nat) (device : Device) (mem : Nat → UInt8) : Chip → Nat → UInt8
  | .marlin => mem
  | .marlin2 => marlin2PskeyReload longBits device mem

/-- What the preload of either chip puts into the packet is the same list of
fields, taken from the structure as it is then. -/
theorem preload_eq (longBits : Nat) (device : Device) (mem : Nat → UInt8) (chip : Chip) :
    chip.preload longBits device mem =
      pskeyPreload chip.adapter.tab (sent longBits device mem chip) := by
  cases chip with
  | marlin => rfl
  | marlin2 => rfl

/-- The table of marlin has no row that ends the walk of `get_pskey_size`. -/
theorem preload_eq_none_iff (longBits : Nat) (device : Device) (mem : Nat → UInt8) (chip : Chip) :
    chip.preload longBits device mem = none ↔ chip = .marlin := by
  have hSize : getPskeySize chip.adapter.tab = none ↔ chip = .marlin := by
    cases chip <;> decide +kernel
  rw [preload_eq, pskeyPreload, ← hSize]
  cases getPskeySize chip.adapter.tab <;> simp

/-- A store inside a row is not seen by the elements of the others. -/
theorem fetch_store_row {entry row : ConfEntry} (hEntry : entry ∈ rows) (hRow : row ∈ rows)
    (hNe : entry ≠ row) (mem : Nat → UInt8) {addr : Nat} {cells : List UInt8}
    (hLow : row.buf ≤ addr) (hHigh : addr + cells.length ≤ row.buf + extent row) {j : Nat}
    (hj : j < entry.len.toNat) :
    Bytes.fetch (Bytes.store mem addr cells) (entry.buf + j * entry.size) entry.size =
      Bytes.fetch mem (entry.buf + j * entry.size) entry.size := by
  have hInside := element_le_extent entry hj
  apply Bytes.fetch_store_of_disjoint
  rcases rows_apart hEntry hRow hNe with hBefore | hBehind
  · exact Or.inl (by omega)
  · exact Or.inr (by omega)

theorem ne_row {entry : ConfEntry} {name : List UInt8} (hName : entry.confEntry = some name)
    {item : Item} {len : Nat} (hNe : name ≠ ascii item.name) : entry ≠ confItemTable item len := by
  rintro rfl
  exact hNe (Option.some.inj hName).symm

/-- Both adapters write the address and the feature set at the places of the
rows. -/
theorem adapter_offsets (chip : Chip) : chip.adapter.deviceAddr = offsetOf .deviceAddr ∧
    chip.adapter.featureSet = offsetOf .featureSet := by
  cases chip with
  | marlin => exact ⟨rfl, rfl⟩
  | marlin2 => exact ⟨rfl, rfl⟩

section

variable {entry : ConfEntry} (hEntry : entry ∈ rows) {name : List UInt8}
  (hName : entry.confEntry = some name) {j : Nat} (hj : j < entry.len.toNat)

include hEntry hName hj

theorem fetch_setMacAddress (device : Device) (mem : Nat → UInt8)
    (hNe : name ≠ ascii Item.deviceAddr.name) :
    Bytes.fetch (setMacAddress (offsetOf .deviceAddr) device mem) (entry.buf + j * entry.size)
        entry.size = Bytes.fetch mem (entry.buf + j * entry.size) entry.size := by
  have hRow : confItemTable .deviceAddr 6 ∈ rows := by decide
  unfold setMacAddress
  split
  · rfl
  · next macAddress _ =>
      apply fetch_store_row hEntry hRow (ne_row hName hNe) mem (Nat.le_refl _) _ hj
      rw [Vector.length_toList]
      decide

/-- The bit for the simple pairing changes one byte of the feature set and
no other element. -/
theorem fetch_feature (mem : Nat → UInt8) (cell : UInt8)
    (hNe : ¬(name = ascii Item.featureSet.name ∧ j = 6)) :
    Bytes.fetch (Bytes.store mem (offsetOf .featureSet + 6) [cell]) (entry.buf + j * entry.size)
        entry.size = Bytes.fetch mem (entry.buf + j * entry.size) entry.size := by
  have hRow : confItemTable .featureSet 16 ∈ rows := by decide
  by_cases hFeature : name = ascii Item.featureSet.name
  · have hj6 : j ≠ 6 := fun h => hNe ⟨hFeature, h⟩
    have hSame : entry = confItemTable .featureSet 16 :=
      rows_eq_of_name (List.mem_cons_of_mem _ hEntry) (List.mem_cons_of_mem _ hRow)
        (hName.trans (congrArg some hFeature))
    have hOffset : entry.buf = offsetOf .featureSet := by rw [hSame]; rfl
    have hSize : entry.size = 1 := by rw [hSame]; decide
    apply Bytes.fetch_store_of_disjoint
    rw [hOffset, hSize, List.length_singleton]
    omega
  · exact fetch_store_row hEntry hRow (ne_row hName hFeature) mem (by decide)
      (by rw [List.length_singleton]; decide) hj

/-- The reload of marlin2 changes no field but the one with the address of
the shared memory. -/
theorem fetch_dspLog (longBits : Nat) (device : Device) (mem : Nat → UInt8)
    (hNe : name ≠ ascii Item.shareMemoTxPacketNumAddr.name) :
    Bytes.fetch (marlin2PskeyReload longBits device mem) (entry.buf + j * entry.size) entry.size =
      Bytes.fetch mem (entry.buf + j * entry.size) entry.size := by
  have hRow : confItemTable .shareMemoTxPacketNumAddr 1 ∈ rows := by decide
  apply fetch_store_row hEntry hRow (ne_row hName hNe) mem (Nat.le_refl _) _ hj
  rw [Radix.length_encode]
  decide

/-- An element that is not overridden goes on the wire as it was loaded. -/
theorem fetch_sent (longBits : Nat) (device : Device) (mem : Nat → UInt8)
    (hKept : ¬Overridden chip name j) :
    Bytes.fetch (sent longBits device (sprdVndReload chip.adapter device mem) chip)
        (entry.buf + j * entry.size) entry.size =
      Bytes.fetch mem (entry.buf + j * entry.size) entry.size := by
  obtain ⟨hDevice, hRest⟩ := not_or.mp hKept
  obtain ⟨hFeature, hDspLog⟩ := not_or.mp hRest
  have hReload : Bytes.fetch (sprdVndReload chip.adapter device mem) (entry.buf + j * entry.size)
      entry.size = Bytes.fetch mem (entry.buf + j * entry.size) entry.size := by
    rw [sprdVndReload, (adapter_offsets chip).1, (adapter_offsets chip).2]
    split
    · rw [fetch_feature hEntry hName hj _ _ hFeature,
        fetch_setMacAddress hEntry hName hj device mem hDevice]
    · exact fetch_setMacAddress hEntry hName hj device mem hDevice
  cases chip with
  | marlin => exact hReload
  | marlin2 =>
      have hNe : name ≠ ascii Item.shareMemoTxPacketNumAddr.name := fun h => hDspLog ⟨rfl, h⟩
      exact (fetch_dspLog hEntry hName hj longBits device _ hNe).trans hReload

end

/-- A member is put on the wire as it is in the structure. -/
theorem put_eq (mem : Nat → UInt8) (field : Field)
    (hWidth : field.width.size = elementSize field.item) :
    put mem field = Bytes.fetch mem (offsetOf field.item)
      (field.count * elementSize field.item) := by
  rw [Bytes.fetch_mul, put]
  congr 1
  funext i
  dsimp only
  have hEncode := Radix.encode_value (Bytes.fetch mem
    (offsetOf field.item + i * elementSize field.item) (elementSize field.item))
  rwa [Bytes.length_fetch, ← congrArg (Radix.encode · _) hWidth] at hEncode

/-- The sequence of stores into the packet is the sequence of rows, with as
many bytes as each row has. -/
theorem puts_eq (mem : Nat → UInt8) :
    puts.flatMap (put mem) = rows.flatMap fun entry => Bytes.fetch mem entry.buf (extent entry) := by
  have hFields : ∀ field ∈ puts, field.width.size = elementSize field.item := by decide +kernel
  have hRows := congrArg (List.flatMap fun x : Nat × Nat × Nat × Nat =>
    Bytes.fetch mem x.1 (x.2.2.1 * x.2.1)) puts_rows
  rw [List.flatMap_map, List.flatMap_map] at hRows
  calc
    _ = puts.flatMap fun field => Bytes.fetch mem (offsetOf field.item)
        (field.count * elementSize field.item) := by
      rw [List.flatMap_def, List.flatMap_def]
      congr 1
      exact List.map_congr_left fun field hField => put_eq mem field (hFields field hField)
    _ = _ := hRows

/-- The first rows fill the structure up to where the next one starts. -/
theorem flatMap_take_rows (mem : Nat → UInt8) {k : Nat} (hk : k ≤ rows.length) :
    ((rows.take k).flatMap fun entry => Bytes.fetch mem entry.buf (extent entry)) =
      Bytes.fetch mem 4 ((rows.take k).map extent).sum := by
  induction k with
  | zero => rfl
  | succ k ih =>
      have hEntry := rows_packed k hk rows[k] (List.getElem?_eq_getElem hk)
      rw [List.take_succ_eq_append_getElem hk, List.flatMap_append, ih (Nat.le_of_succ_le hk),
        List.flatMap_singleton, hEntry, List.map_append, List.sum_append, List.map_singleton,
        List.sum_singleton, Bytes.fetch_add]

theorem sum_extent : (rows.map extent).sum = 216 := by decide

/-- The parameters are the structure behind its first member. -/
theorem parameters_eq {longBits : Nat} {device : Device} {mem : Nat → UInt8} {command : Command}
    (h : chip.preload longBits device mem = some command) :
    command.parameterLength = 216 ∧
      command.parameters = Bytes.fetch (sent longBits device mem chip) 4 216 := by
  have hAll := flatMap_take_rows (sent longBits device mem chip) (Nat.le_refl rows.length)
  rw [List.take_length, sum_extent] at hAll
  rw [preload_eq, pskeyPreload] at h
  obtain ⟨size, -, hCommand⟩ := Option.bind_eq_some_iff.mp h
  rw [← hAll, ← puts_eq, ← Option.some.inj hCommand]
  exact ⟨rfl, rfl⟩

/-- Where the element of a row is on the wire. -/
theorem take_drop_fetch (mem : Nat → UInt8) {k : Nat} (hk : k < rows.length) {j : Nat}
    (hj : j < rows[k].len.toNat) :
    ((Bytes.fetch mem 4 216).drop
        (((rows.take k).map extent).sum + j * rows[k].size)).take rows[k].size =
      Bytes.fetch mem (rows[k].buf + j * rows[k].size) rows[k].size := by
  have hBuf := rows_packed k hk rows[k] (List.getElem?_eq_getElem hk)
  have hInside := element_le_extent rows[k] hj
  have hEnd : ((rows.take k).map extent).sum + extent rows[k] ≤ 216 := by
    have hSplit : rows = rows.take k ++ rows[k] :: rows.drop (k + 1) := by
      rw [List.getElem_cons_drop, List.take_append_drop]
    have hSum := sum_extent
    rw [hSplit, List.map_append, List.map_cons, List.sum_append, List.sum_cons] at hSum
    omega
  obtain ⟨rest, hRest⟩ := Nat.exists_eq_add_of_le (show
    ((rows.take k).map extent).sum + j * rows[k].size + rows[k].size ≤ 216 by omega)
  rw [hRest, Nat.add_assoc, Bytes.fetch_add, List.drop_left' (by simp),
    Bytes.fetch_add, List.take_left' (by simp), hBuf, Nat.add_assoc]

/-- The entries behind `pskey_cmd` are the rows. -/
theorem entry_eq {before after : List ConfEntry} {entry : ConfEntry} {name : List UInt8}
    (hTab : chip.adapter.tab = pskeyCmdRow :: (before ++ entry :: after))
    (hName : entry.confEntry = some name) :
    ∃ hk : before.length < rows.length, rows[before.length] = entry ∧
      rows.take before.length = before := by
  obtain ⟨ending, hEq, hEnding⟩ := chip.tab_eq
  rw [hEq, List.cons_append] at hTab
  have hSame : rows ++ ending = before ++ entry :: after := (List.cons.inj hTab).2
  have hNotEnding : entry ∉ ending := by
    intro hMem
    rw [hEnding entry hMem] at hName
    cases hName
  rcases List.append_eq_append_iff.mp hSame with ⟨middle, hBefore, hAfter⟩ | ⟨middle, hRows, hAfter⟩
  · exact absurd (hAfter ▸ List.mem_append_right middle List.mem_cons_self) hNotEnding
  · cases middle with
    | nil =>
        rw [List.nil_append] at hAfter
        exact absurd (hAfter ▸ List.mem_cons_self) hNotEnding
    | cons first middle =>
        obtain ⟨rfl, _⟩ := List.cons.inj hAfter
        have hGet : rows[before.length]? = some entry := by
          rw [hRows, List.getElem?_append_right (Nat.le_refl _), Nat.sub_self]
          rfl
        obtain ⟨hk, hEntry⟩ := List.getElem?_eq_some_iff.mp hGet
        exact ⟨hk, hEntry, by rw [hRows, List.take_left]⟩

theorem sum_extent_tab (chip : Chip) : (chip.adapter.tab.map extent).sum = 216 := by
  cases chip with
  | marlin => decide
  | marlin2 => decide

/-- The file has at least as many characters as lines, so that the calls of
`fgets` suffice. -/
theorem length_lines_le (file : ConfFile chip.adapter.tab) :
    file.lines.length ≤ file.text.length := by
  rw [ConfFile.text, List.length_flatMap]
  induction file.lines with
  | nil => exact Nat.le_refl 0
  | cons line lines ih =>
      have hLine : 1 ≤ line.text.length := by
        rw [ConfLine.text, ConfLine.body]
        simp only [List.length_append, List.length_cons]
        omega
      rw [List.map_cons, List.sum_cons, List.length_cons]
      omega

/-- What the lines of a file assign goes on the wire, each element at its
place. -/
def OnWire (longBits : Nat) (chip : Chip) (file : ConfFile chip.adapter.tab) (device : Device) :
    Prop :=
  ∃ mem command, vndLoadConf longBits chip.adapter (some file.text) device (fun _ => 0) = some mem ∧
    chip.preload longBits device mem = some command ∧ command.parameterLength = 216 ∧
    command.parameters.length = 216 ∧ (chip.adapter.tab.map extent).sum = 216 ∧
    ∀ before entry after name, chip.adapter.tab = pskeyCmdRow :: (before ++ entry :: after) →
      entry.confEntry = some name → ∀ j < entry.len.toNat, ¬Overridden chip name j →
        (command.parameters.drop ((before.map extent).sum + j * entry.size)).take entry.size =
          Radix.encode entry.size (assigned file.lines name j % 2 ^ (8 * entry.size))

/-- Once the file has been loaded, the bytes that the preload function puts
are right, if it gets as far as that. -/
theorem onWire_of_preload {longBits : Nat} (hLong : 32 ≤ longBits) (file : ConfFile chip.adapter.tab)
    (device : Device) (hPreload : ∀ mem, chip.preload longBits device mem ≠ none) :
    OnWire longBits chip file device := by
  obtain ⟨loaded, hLoaded, hHolds⟩ := loadLines_text longBits line_plain (loadLine_holds hLong)
    holds_zero file.ended (length_lines_le file)
  obtain ⟨command, hCommand⟩ := Option.ne_none_iff_exists'.mp
    (hPreload (sprdVndReload chip.adapter device loaded))
  obtain ⟨hLength, hParameters⟩ := parameters_eq hCommand
  refine ⟨sprdVndReload chip.adapter device loaded, command, ?_, hCommand, hLength, ?_,
    sum_extent_tab chip, ?_⟩
  · unfold vndLoadConf
    dsimp only
    rw [ConfFile.text] at hLoaded ⊢
    rw [hLoaded, Option.map_some]
  · rw [hParameters, Bytes.length_fetch]
  · intro before entry after name hTab hName j hj hKept
    obtain ⟨hk, rfl, hBefore⟩ := entry_eq hTab hName
    have hPlace : _ = Bytes.fetch (sent longBits device _ chip) _ _ :=
      take_drop_fetch (sent longBits device (sprdVndReload chip.adapter device loaded) chip) hk hj
    rw [hBefore, ← hParameters] at hPlace
    have hMem : rows[before.length] ∈ rows := List.getElem_mem hk
    rw [hPlace, fetch_sent hMem hName hj longBits device loaded hKept,
      hHolds _ hMem name hName j hj, Radix.encode_mod_two_pow, List.nil_append]

/-- Every file goes on the wire for marlin2. The preload function of marlin
leaves its table before it has put a byte. -/
theorem conf_to_wire_iff {longBits : Nat} (hLong : 32 ≤ longBits) (chip : Chip)
    (file : ConfFile chip.adapter.tab) (device : Device) :
    OnWire longBits chip file device ↔ chip = .marlin2 := by
  constructor
  · rintro ⟨mem, command, -, hCommand, -⟩
    have hDefined : chip.preload longBits device mem ≠ none := hCommand ▸ Option.some_ne_none command
    rw [ne_eq, preload_eq_none_iff] at hDefined
    cases chip with
    | marlin => exact absurd rfl hDefined
    | marlin2 => rfl
  · rintro rfl
    refine onWire_of_preload hLong file device fun mem => ?_
    rw [ne_eq, preload_eq_none_iff]
    exact Chip.noConfusion

/-- `g_aGainValue=7` -/
def gainFile (chip : Chip) (hKnown : some (ascii Item.gAGainValue.name) ∈
    chip.adapter.tab.map (·.confEntry)) : ConfFile chip.adapter.tab where
  lines := [{
    name := ascii Item.gAGainValue.name
    values := [⟨[], 10, [0x37], Or.inl ⟨rfl, rfl⟩, List.cons_ne_nil _ _,
      List.forall_mem_singleton.mpr (by decide), by decide⟩]
    ended := true
    known := hKnown
    ne_nil := List.cons_ne_nil _ _
    fits := by decide }]
  ended := fun _ h => absurd h List.not_mem_nil

theorem gain_known (chip : Chip) :
    some (ascii Item.gAGainValue.name) ∈ chip.adapter.tab.map (·.confEntry) := by
  cases chip <;> decide

/-- The gain is behind the fields of sixteen bytes. -/
theorem conf_to_wire_gain : 32 ≤ 32 ∧ ∃ mem command,
    vndLoadConf 32 Chip.marlin2.adapter (some (ascii "g_aGainValue=7\n")) ⟨none, false, []⟩
        (fun _ => 0) = some mem ∧
      Chip.marlin2.preload 32 ⟨none, false, []⟩ mem = some command ∧
      (command.parameters.drop 16).take 4 = [7, 0, 0, 0] := by
  refine ⟨Nat.le_refl 32, ?_⟩
  obtain ⟨mem, command, hMem, hCommand, _, _, _, hWire⟩ := (conf_to_wire_iff (Nat.le_refl 32) .marlin2
    (gainFile .marlin2 (gain_known .marlin2)) ⟨none, false, []⟩).mpr rfl
  refine ⟨mem, command, hMem, hCommand, ?_⟩
  exact hWire (rows.take 7) (confItemTable .gAGainValue 6) (rows.drop 8 ++ [⟨none, 0, 0, 0⟩])
    (ascii Item.gAGainValue.name) rfl rfl 0 (by decide) (by simp [Overridden]; decide)

/-- Nothing of the same line goes on the wire with marlin, whatever has been
loaded. -/
theorem marlin_gain_lost :
    (∀ mem, Chip.marlin.preload 32 ⟨none, false, []⟩ mem = none) ∧
      ¬∀ longBits chip file device, 32 ≤ longBits → OnWire longBits chip file device := by
  have hNone (mem : Nat → UInt8) : Chip.marlin.preload 32 ⟨none, false, []⟩ mem = none :=
    (preload_eq_none_iff 32 ⟨none, false, []⟩ mem .marlin).mpr rfl
  refine ⟨hNone, fun hAll => ?_⟩
  obtain ⟨mem, command, -, hCommand, -⟩ := hAll 32 .marlin (gainFile .marlin (gain_known .marlin))
    ⟨none, false, []⟩ (Nat.le_refl 32)
  rw [hNone] at hCommand
  cases hCommand

end Bluetooth.Marlin
