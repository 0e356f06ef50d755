import Gtexswifi.Bluetooth.Assignments

/-! Lines that are longer than the buffer of `vnd_load_conf`. Each piece of
such a line is read like a line of its own. -/
namespace Bluetooth

open Conf

namespace Conf

/-- The lines of a file, whatever their length. -/
def physicalLines (file : List UInt8) : List (List UInt8) := Tokens.physicalLines newline file

/-- The first token of a line is the name of a row. -/
def Names (tab : List ConfEntry) (line : List UInt8) (entry : ConfEntry) : Prop :=
  ∃ token, Tokens.strtokR confDelimiters (cString line) = some token ∧
    lookup token.1 tab = .found entry

/-- Loading a line changes at most bytes of the row that its first token
names, and none if it is a comment. -/
def AssignsNamed (longBits : Nat) (tab : List ConfEntry) (line : List UInt8) : Prop :=
  ∀ mem, ∃ next, loadLines longBits tab line.length line mem = some next ∧
    ∀ addr, next addr ≠ mem addr →
      line.head? ≠ some confComment ∧ ∃ entry, Names tab line entry ∧ entry.Holds addr

/-- A piece stores some element in a row. -/
def StoresIn (tab : List ConfEntry) (piece : List UInt8) (entry : ConfEntry) : Prop :=
  ∃ name value, assignment piece = some (name, value) ∧ lookup name tab = .found entry ∧
    entry.size ≠ 0 ∧ Tokens.tokens confValuesPartition value ≠ []

/-- No lookup leaves the table, and the pieces behind the first one store
nothing except in the row that the line names. -/
structure PiecesAgree (tab : List ConfEntry) (line : List UInt8) : Prop where
  inside : ∀ piece ∈ pieces line, ∀ name ∈ (assignment piece).map Prod.fst,
    lookup name tab ≠ .overrun
  behind : ∀ piece ∈ (pieces line).tail, ∀ entry, StoresIn tab piece entry →
    line.head? ≠ some confComment ∧ Names tab line entry

end Conf

section Piece

variable {longBits : Nat} {m : AdapterModule} {piece : List UInt8} {addr : Nat}

/-- A piece stores a byte at an address. -/
def StoresAt (longBits : Nat) (tab : List ConfEntry) (piece : List UInt8) (addr : Nat) : Prop :=
  ∃ name value entry, assignment piece = some (name, value) ∧ lookup name tab = .found entry ∧
    entry.buf ≤ addr ∧ addr < entry.buf + (cells longBits entry value).length

/-- A piece that stores at an address stores in the row that holds the
address. -/
theorem StoresAt.storesIn (h : StoresAt longBits m.adapter.tab piece addr) :
    ∃ entry, StoresIn m.adapter.tab piece entry ∧ entry.Holds addr := by
  obtain ⟨name, value, entry, hAssignment, hLookup, hStart, hEnd⟩ := h
  rw [length_cells] at hEnd
  have hSize : entry.size ≠ 0 := by
    intro hZero
    rw [hZero] at hEnd
    omega
  have hTokens : Tokens.tokens confValuesPartition value ≠ [] := by
    intro hNone
    rw [hNone] at hEnd
    simp at hEnd
    omega
  have hRoom : min entry.len.toNat (Tokens.tokens confValuesPartition value).length * entry.size ≤
      entry.len.toNat * entry.size := Nat.mul_le_mul_right _ (Nat.min_le_left _ _)
  exact ⟨entry, ⟨name, value, hAssignment, hLookup, hSize, hTokens⟩, hStart, by omega⟩

/-- A piece that stores in a row stores its first byte. -/
theorem Conf.StoresIn.storesAt {entry : ConfEntry} (h : StoresIn m.adapter.tab piece entry)
    (longBits : Nat) : StoresAt longBits m.adapter.tab piece entry.buf ∧ entry.Holds entry.buf := by
  obtain ⟨name, value, hAssignment, hLookup, hSize, hTokens⟩ := h
  have hEntry := m.takesValues entry (lookup_found hLookup).1
  obtain ⟨hLen, -⟩ := hEntry.resolve_right hSize
  have hRoom : 0 < entry.len.toNat := by omega
  have hCount := List.length_pos_iff.mpr hTokens
  have hBytes := Nat.mul_pos (Nat.lt_min.mpr ⟨hRoom, hCount⟩) (Nat.pos_of_ne_zero hSize)
  have hAll := Nat.mul_pos hRoom (Nat.pos_of_ne_zero hSize)
  refine ⟨⟨name, value, entry, hAssignment, hLookup, le_rfl, ?_⟩, le_rfl, ?_⟩
  · rw [length_cells]
    omega
  · omega

/-- A piece with a name of the table stores the bytes of its values at the
start of the row. -/
theorem loadLine_found {name value : List UInt8} {entry : ConfEntry}
    (hAssignment : assignment piece = some (name, value))
    (hLookup : lookup name m.adapter.tab = .found entry) (mem : Nat → UInt8) :
    loadLine longBits m.adapter.tab piece mem =
      some (Bytes.store mem entry.buf (cells longBits entry value)) := by
  rw [loadLine_of_some hAssignment, hLookup]
  exact congrArg some
    (parseNumber_eq (m.takesValues entry (lookup_found hLookup).1) longBits value mem)

/-- A piece that does not store at an address leaves its byte. -/
theorem loadLine_unchanged {mem next : Nat → UInt8}
    (hLoad : loadLine longBits m.adapter.tab piece mem = some next)
    (hNot : ¬StoresAt longBits m.adapter.tab piece addr) : next addr = mem addr := by
  cases hAssignment : assignment piece with
  | none =>
      rw [loadLine_of_none hAssignment] at hLoad
      obtain rfl := Option.some.inj hLoad
      rfl
  | some pair =>
      obtain ⟨name, value⟩ := pair
      cases hLookup : lookup name m.adapter.tab with
      | found entry =>
          rw [loadLine_found hAssignment hLookup] at hLoad
          obtain rfl := Option.some.inj hLoad
          rcases Nat.lt_or_ge addr entry.buf with hBefore | hStart
          · exact Bytes.store_before mem _ hBefore
          · apply Bytes.store_behind
            by_contra hEnd
            exact hNot ⟨name, value, entry, hAssignment, hLookup, hStart, Nat.not_le.mp hEnd⟩
      | absent =>
          rw [loadLine_of_some hAssignment, hLookup] at hLoad
          obtain rfl := Option.some.inj hLoad
          rfl
      | overrun =>
          rw [loadLine_of_some hAssignment, hLookup] at hLoad
          cases hLoad

/-- The byte that a piece stores does not depend on what was there. -/
theorem loadLine_constant (hStores : StoresAt longBits m.adapter.tab piece addr) :
    ∃ byte, ∀ mem next, loadLine longBits m.adapter.tab piece mem = some next →
      next addr = byte := by
  obtain ⟨name, value, entry, hAssignment, hLookup, hStart, hEnd⟩ := hStores
  obtain ⟨i, rfl⟩ := Nat.exists_eq_add_of_le hStart
  have hi : i < (cells longBits entry value).length := by omega
  refine ⟨(cells longBits entry value)[i], ?_⟩
  intro mem next hLoad
  rw [loadLine_found hAssignment hLookup] at hLoad
  obtain rfl := Option.some.inj hLoad
  exact Bytes.store_inside mem entry.buf hi

/-- A name that the first piece of a line assigns to is the first token of
the line. -/
theorem assignment_first {name value : List UInt8}
    (h : assignment piece = some (name, value)) (more : List UInt8) :
    (piece ++ more).head? ≠ some confComment ∧
      ∃ rest, Tokens.strtokR confDelimiters (cString (piece ++ more)) = some (name, rest) := by
  unfold assignment at h
  split at h
  · cases h
  · next hComment =>
      obtain ⟨⟨_, rest⟩, hToken, hMap⟩ := Option.bind_eq_some_iff.mp h
      obtain ⟨_, hValue, hPair⟩ := Option.map_eq_some_iff.mp hMap
      obtain ⟨rfl, rfl⟩ := Prod.mk.inj hPair
      have hPiece : piece ≠ [] := by
        rintro rfl
        cases hToken
      have hRest : rest ≠ [] := by
        rintro rfl
        cases hValue
      obtain ⟨behind, hBehind⟩ : ∃ behind, cString (piece ++ more) = cString piece ++ behind := by
        unfold cString
        rw [List.takeWhile_append]
        split
        · next hAll =>
            have hSame := (List.takeWhile_prefix (p := fun c : UInt8 => decide (c ≠ 0))
              (l := piece)).eq_of_length hAll
            exact ⟨_, by rw [hSame]⟩
        · exact ⟨[], (List.append_nil _).symm⟩
      refine ⟨?_, rest ++ behind, ?_⟩
      · rwa [List.head?_append_of_ne_nil _ hPiece]
      · rw [hBehind]
        exact Tokens.strtokR_extend hToken hRest behind

end Piece

section Pieces

variable {longBits : Nat} {m : AdapterModule} {pieces : List (List UInt8)} {addr : Nat}

theorem loadPieces_cons {piece : List UInt8} {mem next : Nat → UInt8}
    (h : loadPieces longBits m.adapter.tab (piece :: pieces) mem = some next) :
    ∃ middle, loadLine longBits m.adapter.tab piece mem = some middle ∧
      loadPieces longBits m.adapter.tab pieces middle = some next := by
  rw [loadPieces, List.foldlM_cons] at h
  exact Option.bind_eq_some_iff.mp h

/-- Pieces that do not store at an address leave its byte. By induction on
the pieces. -/
theorem loadPieces_unchanged {mem next : Nat → UInt8}
    (hLoad : loadPieces longBits m.adapter.tab pieces mem = some next)
    (hNot : ∀ piece ∈ pieces, ¬StoresAt longBits m.adapter.tab piece addr) :
    next addr = mem addr := by
  induction pieces generalizing mem with
  | nil =>
      obtain rfl := Option.some.inj hLoad
      rfl
  | cons piece pieces ih =>
      obtain ⟨hFirst, hRest⟩ := List.forall_mem_cons.mp hNot
      obtain ⟨middle, hPiece, hPieces⟩ := loadPieces_cons hLoad
      exact (ih hPieces hRest).trans (loadLine_unchanged hPiece hFirst)

/-- Behind a piece that stores at an address its byte no longer depends on
what it was. The last such piece decides. -/
theorem loadPieces_constant
    (hStores : ∃ piece ∈ pieces, StoresAt longBits m.adapter.tab piece addr) :
    ∃ byte, ∀ mem next, loadPieces longBits m.adapter.tab pieces mem = some next →
      next addr = byte := by
  induction pieces with
  | nil =>
      obtain ⟨_, hNone, _⟩ := hStores
      cases hNone
  | cons piece pieces ih =>
      by_cases hLater : ∃ piece ∈ pieces, StoresAt longBits m.adapter.tab piece addr
      · obtain ⟨byte, hByte⟩ := ih hLater
        refine ⟨byte, ?_⟩
        intro mem next hLoad
        obtain ⟨middle, -, hPieces⟩ := loadPieces_cons hLoad
        exact hByte middle next hPieces
      · have hNot : ∀ piece ∈ pieces, ¬StoresAt longBits m.adapter.tab piece addr :=
          fun piece hPiece hHere => hLater ⟨piece, hPiece, hHere⟩
        have hFirst : StoresAt longBits m.adapter.tab piece addr := by
          obtain ⟨other, hOther, hHere⟩ := hStores
          rcases List.mem_cons.mp hOther with rfl | hMem
          · exact hHere
          · exact absurd hHere (hNot other hMem)
        obtain ⟨byte, hByte⟩ := loadLine_constant hFirst
        refine ⟨byte, ?_⟩
        intro mem next hLoad
        obtain ⟨middle, hPiece, hPieces⟩ := loadPieces_cons hLoad
        exact (loadPieces_unchanged hPieces hNot).trans (hByte mem middle hPiece)

end Pieces

section Lines

variable {longBits : Nat} {m : AdapterModule} {line : List UInt8}

/-- The lines of a file are loaded one after the other, each by itself. -/
theorem loadLines_physicalLines (longBits : Nat) (tab : List ConfEntry) (file : List UInt8)
    (mem : Nat → UInt8) :
    loadLines longBits tab file.length file mem =
      (physicalLines file).foldlM (fun mem line => loadLines longBits tab line.length line mem)
        mem := by
  rw [loadLines_eq, pieces, Tokens.pieces_physicalLines (by decide)]
  show _ = (physicalLines file).foldlM _ mem
  unfold physicalLines
  induction Tokens.physicalLines newline file generalizing mem with
  | nil => rfl
  | cons line lines ih =>
      rw [List.flatMap_cons, loadPieces, List.foldlM_append, List.foldlM_cons, loadLines_eq]
      exact Option.bind_congr fun mem _ => ih mem

/-- The first piece of a line stores only in the row that the line names. -/
theorem storesIn_first {piece : List UInt8} {entry : ConfEntry}
    (hFirst : (pieces line).head? = some piece) (h : StoresIn m.adapter.tab piece entry) :
    line.head? ≠ some confComment ∧ Names m.adapter.tab line entry := by
  have hLine : line ≠ [] := by
    rintro rfl
    cases hFirst
  have hParts := Tokens.readLine_parts newline confMaxLineLen line
  rw [pieces, Tokens.pieces_eq (by decide) hLine, List.head?_cons] at hFirst
  obtain rfl := Option.some.inj hFirst
  obtain ⟨name, value, hAssignment, hLookup, -, -⟩ := h
  obtain ⟨hComment, rest, hToken⟩ := assignment_first hAssignment
    (Tokens.readLine newline confMaxLineLen line).2
  rw [Nat.add_sub_cancel, hParts] at hComment hToken
  exact ⟨hComment, (name, rest), hToken, hLookup⟩

/-- A line assigns what it names exactly if the pieces behind its first
store nothing outside the row that it names, and no lookup leaves the table. -/
theorem assignsNamed_iff (longBits : Nat) (m : AdapterModule) (line : List UInt8) :
    AssignsNamed longBits m.adapter.tab line ↔ PiecesAgree m.adapter.tab line := by
  constructor
  · intro hAssigns
    refine ⟨?_, ?_⟩
    · intro piece hPiece name hName hOverrun
      obtain ⟨next, hLoad, -⟩ := hAssigns fun _ => 0
      have hNone := (loadPieces_eq_none_iff longBits m.adapter.tab (pieces line) fun _ => 0).mpr
        ⟨name, List.mem_filterMap.mpr ⟨piece, hPiece, hName⟩, hOverrun⟩
      rw [loadLines_eq, hNone] at hLoad
      cases hLoad
    · intro piece hPiece entry hStores
      obtain ⟨hAt, hHolds⟩ := hStores.storesAt longBits
      obtain ⟨byte, hByte⟩ := loadPieces_constant ⟨piece, List.mem_of_mem_tail hPiece, hAt⟩
      -- what was there before is another byte
      obtain ⟨next, hLoad, hChanged⟩ := hAssigns fun _ => byte + 1
      rw [loadLines_eq] at hLoad
      have hDiffers : next entry.buf ≠ byte + 1 := by
        rw [hByte _ next hLoad]
        simp
      obtain ⟨hComment, other, hNames, hOther⟩ := hChanged entry.buf hDiffers
      obtain ⟨token, hToken, hLookup⟩ := hNames
      obtain ⟨_, _, _, hEntry, _, _⟩ := hStores
      obtain rfl := m.eq_of_holds (lookup_found hEntry).1 (lookup_found hLookup).1 hHolds hOther
      exact ⟨hComment, token, hToken, hLookup⟩
  · intro hAgree mem
    obtain ⟨next, hLoad⟩ : ∃ next, loadPieces longBits m.adapter.tab (pieces line) mem = some next := by
      apply Option.ne_none_iff_exists'.mp
      intro hNone
      obtain ⟨name, hName, hOverrun⟩ := (loadPieces_eq_none_iff _ _ _ _).mp hNone
      obtain ⟨piece, hPiece, hName⟩ := List.mem_filterMap.mp hName
      exact hAgree.inside piece hPiece name hName hOverrun
    refine ⟨next, by rw [loadLines_eq, hLoad], ?_⟩
    intro addr hChanged
    obtain ⟨piece, hPiece, hAt⟩ :
        ∃ piece ∈ pieces line, StoresAt longBits m.adapter.tab piece addr := by
      by_contra hNone
      exact hChanged (loadPieces_unchanged hLoad fun piece hPiece hAt => hNone ⟨piece, hPiece, hAt⟩)
    obtain ⟨entry, hStores, hHolds⟩ := hAt.storesIn
    obtain ⟨hComment, hNames⟩ : line.head? ≠ some confComment ∧ Names m.adapter.tab line entry := by
      cases hPieces : pieces line with
      | nil =>
          rw [hPieces] at hPiece
          cases hPiece
      | cons first later =>
          rw [hPieces] at hPiece
          rcases List.mem_cons.mp hPiece with rfl | hLater
          · exact storesIn_first (by rw [hPieces]; rfl) hStores
          · exact hAgree.behind piece (by rw [hPieces]; exact hLater) entry hStores
    exact ⟨hComment, entry, hNames, hHolds⟩

/-- The lines of a file are loaded each by itself, and each assigns at most
to the row that its first token names. -/
structure LinesAssignNamed (longBits : Nat) (tab : List ConfEntry) (file : List UInt8) : Prop where
  separate : ∀ mem, loadLines longBits tab file.length file mem =
    (physicalLines file).foldlM (fun mem line => loadLines longBits tab line.length line mem) mem
  named : ∀ line ∈ physicalLines file, AssignsNamed longBits tab line

/-- The lines assign as their first tokens say exactly if no piece behind
the first one of a line reads as an assignment to another row, or as one in
a comment, and no lookup leaves the table. -/
theorem linesAssignNamed_iff (longBits : Nat) (m : AdapterModule) (file : List UInt8) :
    LinesAssignNamed longBits m.adapter.tab file ↔
      ∀ line ∈ physicalLines file, PiecesAgree m.adapter.tab line := by
  constructor
  · intro hLines line hLine
    exact (assignsNamed_iff longBits m line).mp (hLines.named line hLine)
  · intro hAgree
    refine ⟨loadLines_physicalLines longBits m.adapter.tab file, ?_⟩
    intro line hLine
    exact (assignsNamed_iff longBits m line).mpr (hAgree line hLine)

/-- A comment of which the first piece ends in front of an assignment. -/
def longComment : List UInt8 :=
  confComment :: List.replicate 254 0x78 ++ Numerals.ascii "device_class=1\n"

/-- A comment of more than 255 characters whose second piece reads as an
assignment. -/
theorem longComment_assigns :
    ¬LinesAssignNamed 32 AdapterModule.marlin2.adapter.tab longComment := by
  intro hLines
  have hLine : longComment ∈ physicalLines longComment := by decide +kernel
  have hAgree := (assignsNamed_iff 32 .marlin2 longComment).mp (hLines.named longComment hLine)
  have hPiece : Numerals.ascii "device_class=1\n" ∈ (pieces longComment).tail := by
    decide +kernel
  have hStores : StoresIn AdapterModule.marlin2.adapter.tab (Numerals.ascii "device_class=1\n")
      (Marlin.confItemTable .deviceClass 1) :=
    ⟨Numerals.ascii "device_class", Numerals.ascii "1", by decide +kernel, by decide +kernel,
      by decide +kernel, by decide +kernel⟩
  exact (hAgree.behind _ hPiece _ hStores).1 rfl

/-- A line that fits the buffer comes in one piece, and has nothing behind
it. -/
theorem PiecesAgree.of_fits {file : List UInt8} (hLine : line ∈ physicalLines file)
    (hFits : line.length ≤ confMaxLineLen)
    (hInside : ∀ name ∈ (assignment line).map Prod.fst, lookup name m.adapter.tab ≠ .overrun) :
    PiecesAgree m.adapter.tab line := by
  have hOne : pieces line = [line] := Tokens.pieces_of_fits (by decide) hLine hFits
  refine ⟨?_, ?_⟩
  · intro piece hPiece
    rw [hOne, List.mem_singleton] at hPiece
    rwa [hPiece]
  · intro piece hPiece
    rw [hOne] at hPiece
    cases hPiece

end Lines

end Bluetooth
