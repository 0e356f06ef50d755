import Gtexswifi.Bluetooth.Sr2351
import Gtexswifi.Library.Pieces

/-! The pieces of a file as assignments to entries of a table, and what the
assignments store. -/
namespace Bluetooth.Conf

/-- What `fgets` delivers of a file. -/
def pieces (file : List UInt8) : List (List UInt8) :=
  Tokens.pieces newline (confMaxLineLen + 1) file

/-- The name and the text of the values, unless a piece is a comment or
lacks one of them. -/
def assignment (piece : List UInt8) : Option (List UInt8 × List UInt8) :=
  if piece.head? = some confComment then none
  else
    (Tokens.strtokR confDelimiters (cString piece)).bind fun token =>
      (Tokens.strtokR confValuesDelimiters token.2).map fun value => (token.1, value.1)

variable {longBits : Nat} {tab : List ConfEntry} {piece name value : List UInt8}

/-- A piece without a name and a value leaves the table as it is. -/
theorem loadLine_of_none (h : assignment piece = none) (mem : Nat → UInt8) :
    loadLine longBits tab piece mem = some mem := by
  unfold assignment at h
  unfold loadLine
  split
  · rfl
  · next hComment =>
      rw [if_neg hComment] at h
      cases hName : Tokens.strtokR confDelimiters (cString piece) with
      | none => rfl
      | some token =>
          rw [hName, Option.bind_some, Option.map_eq_none_iff] at h
          dsimp only
          rw [h]

/-- A piece with a name and a value is looked up. An unknown name is passed
over, and a walk that leaves the table is undefined. -/
theorem loadLine_of_some (h : assignment piece = some (name, value)) (mem : Nat → UInt8) :
    loadLine longBits tab piece mem =
      match lookup name tab with
      | .found entry => some (parseNumber longBits value entry.buf entry.len entry.size mem)
      | .absent => some mem
      | .overrun => none := by
  unfold assignment at h
  split at h
  · cases h
  · next hComment =>
      obtain ⟨token, hToken, hMap⟩ := Option.bind_eq_some_iff.mp h
      obtain ⟨values, hValues, hPair⟩ := Option.map_eq_some_iff.mp hMap
      obtain ⟨rfl, rfl⟩ := Prod.mk.inj hPair
      rw [loadLine, if_neg hComment, hToken]
      dsimp only
      cases lookup token.1 tab <;> simp only [hValues]

/-- Loads pieces one after the other. -/
def loadPieces (longBits : Nat) (tab : List ConfEntry) (pieces : List (List UInt8))
    (mem : Nat → UInt8) : Option (Nat → UInt8) :=
  pieces.foldlM (fun mem piece => loadLine longBits tab piece mem) mem

/-- The loop of `fgets` treats one piece of at most 255 characters after the
other, and what it does depends on the pieces alone. -/
theorem loadLines_eq_loadPieces (longBits : Nat) (tab : List ConfEntry) (n : Nat)
    (file : List UInt8) (mem : Nat → UInt8) :
    loadLines longBits tab n file mem =
      loadPieces longBits tab (Tokens.piecesFrom newline (confMaxLineLen + 1) n file) mem := by
  induction n generalizing file mem with
  | zero => rfl
  | succ n ih =>
      rw [loadLines, Tokens.piecesFrom]
      cases Tokens.fgets newline (confMaxLineLen + 1) file with
      | none => rfl
      | some next =>
          rw [loadPieces, List.foldlM_cons]
          exact Option.bind_congr fun mem _ => ih next.2 mem

/-- A file is loaded piece by piece. -/
theorem loadLines_eq (longBits : Nat) (tab : List ConfEntry) (file : List UInt8)
    (mem : Nat → UInt8) :
    loadLines longBits tab file.length file mem = loadPieces longBits tab (pieces file) mem :=
  loadLines_eq_loadPieces longBits tab file.length file mem

/-- The only undefined piece is one whose name is looked for beyond the end
of the table. -/
theorem loadLine_eq_none_iff (longBits : Nat) (tab : List ConfEntry) (piece : List UInt8)
    (mem : Nat → UInt8) :
    loadLine longBits tab piece mem = none ↔
      ∃ name ∈ (assignment piece).map Prod.fst, lookup name tab = .overrun := by
  cases hAssignment : assignment piece with
  | none => simp [loadLine_of_none hAssignment]
  | some pair =>
      obtain ⟨name, value⟩ := pair
      rw [loadLine_of_some hAssignment]
      cases hLookup : lookup name tab <;> simp [hLookup]

/-- Loading fails where a lookup leaves the table, whatever the memory. -/
theorem loadPieces_eq_none_iff (longBits : Nat) (tab : List ConfEntry)
    (pieces : List (List UInt8)) (mem : Nat → UInt8) :
    loadPieces longBits tab pieces mem = none ↔
      ∃ name ∈ pieces.filterMap fun piece => (assignment piece).map Prod.fst,
        lookup name tab = .overrun := by
  induction pieces generalizing mem with
  | nil => simp [loadPieces]
  | cons piece pieces ih =>
      have hFirst := loadLine_eq_none_iff longBits tab piece mem
      rw [loadPieces, List.foldlM_cons]
      cases hLoad : loadLine longBits tab piece mem with
      | none =>
          obtain ⟨name, hName, hOverrun⟩ := hFirst.mp hLoad
          have hHere : ∃ name ∈ (piece :: pieces).filterMap fun piece =>
              (assignment piece).map Prod.fst, lookup name tab = .overrun :=
            ⟨name, List.mem_filterMap.mpr ⟨piece, List.mem_cons_self, hName⟩, hOverrun⟩
          simpa using hHere
      | some next =>
          have hInside : ∀ name ∈ (assignment piece).map Prod.fst, lookup name tab ≠ .overrun := by
            intro name hName hOverrun
            rw [hFirst.mpr ⟨name, hName, hOverrun⟩] at hLoad
            cases hLoad
          have hRest := ih next
          unfold loadPieces at hRest
          cases hAssignment : (assignment piece).map Prod.fst with
          | none => simpa [hAssignment] using hRest
          | some name =>
              have hName := hInside name hAssignment
              simpa [hAssignment, hName] using hRest

/-- What a row takes from the text of the values. -/
def cells (longBits : Nat) (entry : ConfEntry) (value : List UInt8) : List UInt8 :=
  (((Tokens.tokens confValuesPartition value).take entry.len.toNat).map fun subValue =>
    Radix.encode entry.size (parseValue longBits subValue)).flatten

/-- As many elements are written as there are values, but not more than the
row has. -/
theorem length_cells (longBits : Nat) (entry : ConfEntry) (value : List UInt8) :
    (cells longBits entry value).length =
      min entry.len.toNat (Tokens.tokens confValuesPartition value).length * entry.size := by
  simp [cells, List.length_flatten, Function.comp_def, List.map_const', List.sum_replicate]

/-- A row that takes values stores them from its first byte on. -/
theorem parseNumber_eq {entry : ConfEntry} (hEntry : AdapterModule.TakesValues entry)
    (longBits : Nat) (value : List UInt8) (mem : Nat → UInt8) :
    parseNumber longBits value entry.buf entry.len entry.size mem =
      Bytes.store mem entry.buf (cells longBits entry value) := by
  rcases hEntry with ⟨hLen, hSize⟩ | hSize
  · exact parseValues_eq longBits hSize _ (show entry.len = (entry.len.toNat : Int) by omega)
      (by omega) entry.buf mem
  · have hNone : cells longBits entry value = [] := by
      apply List.eq_nil_of_length_eq_zero
      rw [length_cells, hSize, Nat.mul_zero]
    rw [parseNumber, hSize, parseValues_of_size_zero, hNone, Bytes.store_nil]

/-- The row that is found is a row of the table and has the name that was
looked for. -/
theorem lookup_found {name : List UInt8} {tab : List ConfEntry} {entry : ConfEntry}
    (h : lookup name tab = .found entry) : entry ∈ tab ∧ entry.confEntry = some name := by
  induction tab with
  | nil => cases h
  | cons first tab ih =>
      rw [lookup] at h
      cases hFirst : first.confEntry with
      | none =>
          rw [hFirst] at h
          cases h
      | some confEntry =>
          rw [hFirst] at h
          dsimp only at h
          split at h
          · next hName =>
              obtain rfl := Walk.found.inj h
              exact ⟨List.mem_cons_self, hFirst.trans (congrArg some hName)⟩
          · obtain ⟨hMem, hEntry⟩ := ih h
            exact ⟨List.mem_cons_of_mem first hMem, hEntry⟩

/-- A byte of a row's array. -/
def ConfEntry.Holds (entry : ConfEntry) (addr : Nat) : Prop :=
  entry.buf ≤ addr ∧ addr < entry.buf + entry.len.toNat * entry.size

end Bluetooth.Conf

namespace Bluetooth.AdapterModule

open Conf

/-- The rows lie one behind the other in the structure, so that a store
through one row changes no other. -/
theorem tab_disjoint (m : AdapterModule) : m.adapter.tab.Pairwise fun a b =>
    a.size = 0 ∨ b.size = 0 ∨ a.buf + a.len.toNat * a.size ≤ b.buf := by
  cases m <;> decide +kernel

/-- No two rows of a table share a byte. -/
theorem eq_of_holds (m : AdapterModule) {a b : ConfEntry} (ha : a ∈ m.adapter.tab)
    (hb : b ∈ m.adapter.tab) {addr : Nat} (haddr : a.Holds addr) (hbddr : b.Holds addr) :
    a = b := by
  by_contra hNe
  have hSymm : Std.Symm fun a b : ConfEntry => ¬∃ addr, a.Holds addr ∧ b.Holds addr :=
    ⟨fun _ _ h ⟨addr, hb, ha⟩ => h ⟨addr, ha, hb⟩⟩
  have hPairwise : m.adapter.tab.Pairwise fun a b => ¬∃ addr, a.Holds addr ∧ b.Holds addr := by
    refine m.tab_disjoint.imp ?_
    rintro a b hApart ⟨addr, ⟨hStart, hEnd⟩, hbStart, hbEnd⟩
    rcases hApart with hSize | hSize | hOrder
    · rw [hSize] at hEnd
      omega
    · rw [hSize] at hbEnd
      omega
    · omega
  exact hPairwise.forall ha hb hNe ⟨addr, haddr, hbddr⟩

end Bluetooth.AdapterModule
