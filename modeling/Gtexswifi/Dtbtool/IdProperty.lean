import Gtexswifi.Dtbtool.ChipInfo
import Gtexswifi.Library.Tokens
import Mathlib.Data.Bool.AllAny

/-! The id property of a device tree, read by `getChipInfo` with its
tokenizer and its flags into nodes that are chained along `t_next`. -/
namespace Dtbtool

/-- A node as `getChipInfo` leaves it. Its address is its place among the
allocated nodes. -/
structure ChipNode where
  id : ChipId
  dtbSize : Nat
  dtbFile : Option (List UInt8)
  tNext : Option Nat
  master : Nat
  wroteDtb : Bool
  masterOffset : Nat
  deriving DecidableEq

/-- `" \t"` -/
def blanks : List Char := [' ', '\t']

/-- The variables of a pass over three fields. -/
structure FieldScan where
  data : Fin 3 → UInt32
  entryValid : Bool
  entryEnded : Bool
  sptr : List Char

/-- The loop over the fields that are left. -/
def readFields : List (Fin 3) → FieldScan → FieldScan
  | [], s => s
  | i :: fields, s =>
      match Tokens.strtokR blanks s.sptr with
      | some (tok, sptr) =>
          if tok.head? = some '>' then
            { s with sptr := sptr, entryEnded := true, entryValid := false }
          else
            readFields fields { s with
              sptr := sptr
              data := Function.update s.data i (UInt32.ofNat (strtoul tok)) }
      | none =>
          readFields fields { s with
            sptr := []
            data := Function.update s.data i 0
            entryValid := false
            entryEnded := true }

/-- The nodes so far, the first of the list that is built, and the number of
entries. -/
structure Chain where
  memory : List ChipNode
  chip : Option Nat
  count : Nat

namespace Chain

def empty : Chain := ⟨[], none, 0⟩

def node (id : ChipId) (tNext : Option Nat) (master : Nat) : ChipNode where
  id := id
  dtbSize := 0
  dtbFile := none
  tNext := tNext
  master := master
  wroteDtb := false
  masterOffset := 0

/-- A new node is the first one, or comes behind the first one. -/
def add (chain : Chain) (id : ChipId) : Chain :=
  let tmp := chain.memory.length
  match chain.chip with
  | none =>
      { memory := chain.memory ++ [node id none tmp]
        chip := some tmp
        count := chain.count + 1 }
  | some chip =>
      { memory := chain.memory.modify chip (fun first => { first with tNext := some tmp }) ++
          [node id ((chain.memory[chip]?).bind ChipNode.tNext) chip]
        chip := some chip
        count := chain.count + 1 }

/-- The loop over the entries, with at most so many passes. It ends without
a result when there is no memory for a node. -/
def readEntries (malloc : Nat → Bool) : Nat → FieldScan → Chain → Option Chain
  | 0, _, _ => none
  | passes + 1, s, chain =>
      let s := readFields [0, 1, 2] { s with entryValid := true }
      if s.entryEnded = true then some chain
      else if s.entryValid = true then
        if malloc chain.memory.length = true then
          readEntries malloc passes s (chain.add ⟨s.data 0, s.data 1, s.data 2⟩)
        else none
      else readEntries malloc passes s chain

/-- What follows the tag in the first line that has it. A line ends at a
zero character. -/
def tagged (lines : List (List Char)) : Option (List Char) :=
  lines.findSome? fun line => afterTag (line.takeWhile (· ≠ Char.ofNat 0))

/-- `getChipInfo` on the output of `dtc`. Without a result it returns `NULL`
and leaves `*num` alone. -/
def getChipInfo (malloc : Nat → Bool) (lines : List (List Char)) : Option Chain :=
  match tagged lines with
  | none => none
  | some pos => readEntries malloc (pos.length + 1) ⟨fun _ => 0, true, false, pos⟩ empty

/-- The tokens that `strtok_r` gives of a line, one call after the other. -/
theorem tokens_eq (line : List Char) : tokens line = Tokens.tokens blanks line := by
  have hBlank : (fun c => decide (c = ' ' ∨ c = '\t')) = fun c => decide (c ∈ blanks) := by
    funext c
    simp [blanks]
  rw [tokens, hBlank, Tokens.filter_splitOnP]

variable {malloc : Nat → Bool}

theorem readFields_ended {fields : List (Fin 3)} {s : FieldScan} (h : s.entryEnded = true) :
    (readFields fields s).entryEnded = true := by
  induction fields generalizing s with
  | nil => exact h
  | cons i fields ih =>
      rw [readFields]
      cases Tokens.strtokR blanks s.sptr with
      | none => exact ih rfl
      | some next =>
          dsimp only
          split
          · rfl
          · exact ih h

/-- The property has no further entry: it ends, or its next token closes it. -/
def Closed (sptr : List Char) : Prop :=
  ∀ tok ∈ (Tokens.tokens blanks sptr).head?, tok.head? = some '>'

/-- One field: the next token is its value, unless the property is closed. -/
theorem readFields_cons (i : Fin 3) (fields : List (Fin 3)) (s : FieldScan) :
    (∃ tok sptr, Tokens.tokens blanks s.sptr = tok :: Tokens.tokens blanks sptr ∧
      sptr.length < s.sptr.length ∧ tok.head? ≠ some '>' ∧
      readFields (i :: fields) s = readFields fields { s with
        sptr := sptr, data := Function.update s.data i (UInt32.ofNat (strtoul tok)) }) ∨
    (Closed s.sptr ∧ (readFields (i :: fields) s).entryEnded = true) := by
  rw [readFields, Closed, Tokens.tokens_eq]
  cases hToken : Tokens.strtokR blanks s.sptr with
  | none => exact Or.inr ⟨nofun, readFields_ended rfl⟩
  | some next =>
      obtain ⟨tok, sptr⟩ := next
      by_cases hClosed : tok.head? = some '>'
      · refine Or.inr ⟨?_, ?_⟩
        · rintro _ ⟨⟩
          exact hClosed
        · dsimp only
          rw [if_pos hClosed]
      · refine Or.inl ⟨tok, sptr, rfl, Tokens.length_strtokR hToken, hClosed, ?_⟩
        dsimp only
        rw [if_neg hClosed]

/-- No entry ends behind the token that closes the property. -/
theorem entries_closed {front rest : List (List Char)} (hFront : front.length < 3)
    (hClosed : ∀ tok ∈ rest.head?, tok.head? = some '>') : entries (front ++ rest) = [] := by
  have hShort : ∀ toks : List (List Char), toks.length < 3 → entries toks = [] := by
    intro toks hToks
    match toks with
    | [] | [_] | [_, _] => rfl
    | _ :: _ :: _ :: _ => exact absurd hToks (by simp)
  cases rest with
  | nil => exact hShort _ (by simpa using hFront)
  | cons tok rest =>
      have hTok := hClosed tok rfl
      match front, rest with
      | [], [] | [], [_] | [_], [] => rfl
      | [], _ :: _ :: _ => simp [entries, hTok]
      | [_], _ :: _ => simp [entries, hTok]
      | [_, _], _ => simp [entries, hTok]
      | _ :: _ :: _ :: _, _ => exact absurd hFront (by simp)

/-- A pass reads an entry, or ends the property where there is no further
one. -/
theorem readFields_entry (s : FieldScan) :
    (∃ s' : FieldScan, readFields [0, 1, 2] s = s' ∧ s'.entryEnded = s.entryEnded ∧
      s'.entryValid = s.entryValid ∧ s'.sptr.length < s.sptr.length ∧
      entries (Tokens.tokens blanks s.sptr) =
        ⟨s'.data 0, s'.data 1, s'.data 2⟩ :: entries (Tokens.tokens blanks s'.sptr)) ∨
    ((readFields [0, 1, 2] s).entryEnded = true ∧
      entries (Tokens.tokens blanks s.sptr) = []) := by
  obtain ⟨tok₀, sptr₀, hTokens₀, hLess₀, hOpen₀, hRead₀⟩ | ⟨hClosed, hEnded⟩ :=
    readFields_cons 0 [1, 2] s
  · obtain ⟨tok₁, sptr₁, hTokens₁, hLess₁, hOpen₁, hRead₁⟩ | ⟨hClosed, hEnded⟩ :=
      readFields_cons 1 [2] { s with
        sptr := sptr₀, data := Function.update s.data 0 (UInt32.ofNat (strtoul tok₀)) }
    · obtain ⟨tok₂, sptr₂, hTokens₂, hLess₂, hOpen₂, hRead₂⟩ | ⟨hClosed, hEnded⟩ :=
        readFields_cons 2 [] { s with
          sptr := sptr₁
          data := Function.update (Function.update s.data 0 (UInt32.ofNat (strtoul tok₀))) 1
            (UInt32.ofNat (strtoul tok₁)) }
      · dsimp only at hTokens₁ hTokens₂ hLess₁ hLess₂
        refine Or.inl ⟨_, hRead₀.trans (hRead₁.trans hRead₂), rfl, rfl, ?_, ?_⟩
        · exact hLess₂.trans (hLess₁.trans hLess₀)
        · rw [hTokens₀, hTokens₁, hTokens₂, entries, if_neg (by simp [hOpen₀, hOpen₁, hOpen₂])]
          rfl
      · dsimp only at hTokens₁
        rw [hTokens₀, hTokens₁]
        exact Or.inr ⟨(hRead₀.trans hRead₁) ▸ hEnded,
          @entries_closed [tok₀, tok₁] _ (by simp) hClosed⟩
    · exact Or.inr ⟨hRead₀ ▸ hEnded, hTokens₀ ▸ @entries_closed [tok₀] _ (by simp) hClosed⟩
  · exact Or.inr ⟨hEnded, @entries_closed [] _ (by simp) hClosed⟩

/-- The passes add the entries of the property one after the other. -/
theorem readEntries_eq (hMemory : ∀ i, malloc i = true) {passes : Nat} {s : FieldScan}
    (hPasses : s.sptr.length < passes) (hOpen : s.entryEnded = false) (chain : Chain) :
    readEntries malloc passes s chain =
      some ((entries (Tokens.tokens blanks s.sptr)).foldl add chain) := by
  induction passes generalizing s chain with
  | zero => exact absurd hPasses (Nat.not_lt_zero _)
  | succ passes ih =>
      rw [readEntries]
      obtain ⟨s', hRead, hEnded, hValid, hLess, hEntries⟩ | ⟨hEnded, hEntries⟩ :=
        readFields_entry { s with entryValid := true }
      · have hMore : s'.sptr.length < s.sptr.length := hLess
        rw [hRead, hEnded, hOpen, hValid, if_neg Bool.false_ne_true, if_pos rfl, if_pos (hMemory _),
          ih (by omega) (hEnded.trans hOpen), hEntries, List.foldl_cons]
      · rw [if_pos hEnded, hEntries, List.foldl_nil]

/-- The nodes from a link on, with their addresses. -/
def Along (memory : List ChipNode) : Option Nat → List (Nat × ChipNode) → Prop
  | link, [] => link = none
  | link, (a, n) :: rest => link = some a ∧ memory[a]? = some n ∧ Along memory n.tNext rest

/-- The chain depends on the nodes that it goes along and on no others. -/
theorem Along.frame {memory memory' : List ChipNode} {link : Option Nat}
    {nodes : List (Nat × ChipNode)} (h : Along memory link nodes)
    (hSame : ∀ e ∈ nodes, memory[e.1]? = some e.2 → memory'[e.1]? = some e.2) :
    Along memory' link nodes := by
  induction nodes generalizing link with
  | nil => exact h
  | cons e nodes ih =>
      obtain ⟨hFirst, hRest⟩ := List.forall_mem_cons.mp hSame
      exact ⟨h.1, hFirst h.2.1, ih h.2.2 hRest⟩

/-- The list of a chain: its first node, and those behind it, which are
other ones. -/
structure Lists (chain : Chain) (first : Nat) (head : ChipNode)
    (rest : List (Nat × ChipNode)) : Prop where
  chip : chain.chip = some first
  along : Along chain.memory (some first) ((first, head) :: rest)
  apart : ∀ e ∈ rest, e.1 ≠ first
  mastered : ∀ e ∈ (first, head) :: rest, e.2.master = first
  counted : chain.count = rest.length + 1

variable {chain : Chain} {first : Nat} {head : ChipNode} {rest : List (Nat × ChipNode)}

theorem lists_first (id : ChipId) : (empty.add id).Lists 0 (node id none 0) [] where
  chip := rfl
  along := ⟨rfl, rfl, rfl⟩
  apart := nofun
  mastered := by simp [node]
  counted := rfl

theorem Along.lt {memory : List ChipNode} {link : Option Nat} {nodes : List (Nat × ChipNode)}
    (h : Along memory link nodes) {e : Nat × ChipNode} (hMem : e ∈ nodes) :
    e.1 < memory.length := by
  induction nodes generalizing link with
  | nil => cases hMem
  | cons n nodes ih =>
      cases hMem with
      | head => exact (List.getElem?_eq_some_iff.mp h.2.1).1
      | tail _ hLater => exact ih h.2.2 hLater

/-- A further entry comes behind the first one. -/
theorem Lists.add (h : chain.Lists first head rest) (id : ChipId) :
    (chain.add id).Lists first { head with tNext := some chain.memory.length }
      ((chain.memory.length, node id head.tNext first) :: rest) := by
  obtain ⟨-, hHead, hRest⟩ := h.along
  have hFirst : first < chain.memory.length := h.along.lt List.mem_cons_self
  have hAdd : chain.add id =
      { memory := chain.memory.modify first (fun n =>
          { n with tNext := some chain.memory.length }) ++ [node id head.tNext first]
        chip := some first
        count := chain.count + 1 } := by
    rw [Chain.add, h.chip]
    dsimp only
    rw [hHead, Option.bind_some]
  have hKept : ∀ e ∈ rest, chain.memory[e.1]? = some e.2 →
      (chain.add id).memory[e.1]? = some e.2 := by
    intro e hMem hNode
    have hLess : e.1 < chain.memory.length := (List.getElem?_eq_some_iff.mp hNode).1
    rw [hAdd, List.getElem?_append_left (by simpa using hLess),
      List.getElem?_modify_ne _ _ (h.apart e hMem).symm, hNode]
  constructor
  · rw [hAdd]
  · refine ⟨rfl, ?_, rfl, ?_, hRest.frame hKept⟩
    · rw [hAdd, List.getElem?_append_left (by simpa using hFirst), List.getElem?_modify_eq, hHead]
      rfl
    · rw [hAdd, List.getElem?_append_right (by simp)]
      simp
  · intro e hMem
    cases hMem with
    | head => exact hFirst.ne'
    | tail _ hOld => exact h.apart e hOld
  · intro e hMem
    have hMaster := h.mastered
    simp only [List.mem_cons, forall_eq_or_imp] at hMaster hMem
    obtain rfl | rfl | hOld := hMem
    · exact hMaster.1
    · rfl
    · exact hMaster.2 e hOld
  · rw [hAdd]
    simp [h.counted]

/-- The ids along the list are chained as the entries are linked. -/
theorem lists_foldl (h : chain.Lists first head rest) (ids : List ChipId) :
    ∃ head' rest', (ids.foldl add chain).Lists first head' rest' ∧
      head'.id :: rest'.map (·.2.id) =
        ids.foldl linkEntry (head.id :: rest.map (·.2.id)) := by
  induction ids generalizing chain head rest with
  | nil => exact ⟨head, rest, h, rfl⟩
  | cons id ids ih => exact ih (h.add id)

theorem declaredIds_of_none {lines : List (List Char)} (h : tagged lines = none) :
    declaredIds lines = [] := by
  rw [tagged] at h
  rw [declaredIds, h]

theorem declaredIds_of_some {lines : List (List Char)} {pos : List Char}
    (h : tagged lines = some pos) :
    declaredIds lines = entries (Tokens.tokens blanks pos) := by
  rw [tagged] at h
  rw [declaredIds, h]
  exact congrArg entries (tokens_eq pos)

/-- The nodes that `getChipInfo` returns hold the chain of ids of a scan. -/
theorem getChipInfo_lists (hMemory : ∀ i, malloc i = true) {lines : List (List Char)}
    (hEntries : declaredIds lines ≠ []) :
    ∃ chain first head rest, getChipInfo malloc lines = some chain ∧
      chain.Lists first head rest ∧
      head.id :: rest.map (·.2.id) = Dtbtool.getChipInfo lines := by
  obtain ⟨pos, hPos⟩ : ∃ pos, tagged lines = some pos := by
    cases hTagged : tagged lines with
    | none => exact absurd (declaredIds_of_none hTagged) hEntries
    | some pos => exact ⟨pos, rfl⟩
  have hIds := declaredIds_of_some hPos
  obtain ⟨id, ids, hCons⟩ := List.exists_cons_of_ne_nil hEntries
  obtain ⟨head, rest, hLists, hChain⟩ := lists_foldl (lists_first id) ids
  have hRead := @readEntries_eq _ hMemory (pos.length + 1) ⟨fun _ => 0, true, false, pos⟩
    (Nat.lt_succ_self _) rfl empty
  rw [← hIds, hCons, List.foldl_cons] at hRead
  refine ⟨_, 0, head, rest, ?_, hLists, ?_⟩
  · rw [getChipInfo, hPos]
    exact hRead
  · rw [hChain, Dtbtool.getChipInfo, hCons]
    rfl

end Chain

/-- An integer literal for 32 bits: decimal, octal behind a `0`, or
hexadecimal behind `0x` or `0X`. -/
structure Literal where
  mark : List Char
  base : Nat
  digits : List Char
  marked : (mark = [] ∧ base = 10 ∧ digits ≠ [] ∧ digits.head? ≠ some '0') ∨
    (mark = ['0'] ∧ base = 8) ∨
    ((mark = ['0', 'x'] ∨ mark = ['0', 'X']) ∧ base = 16 ∧ digits ≠ [])
  below : ∀ c ∈ digits, digitValue c < base
  bounded : (digits.map digitValue).foldl (fun value digit => value * base + digit) 0 < 2 ^ 32

namespace Literal

def text (n : Literal) : List Char := n.mark ++ n.digits

def value (n : Literal) : Nat :=
  (n.digits.map digitValue).foldl (fun value digit => value * n.base + digit) 0

variable (n : Literal)

theorem base_le : n.base ≤ 16 := by
  obtain ⟨-, hBase, -⟩ | ⟨-, hBase⟩ | ⟨-, hBase, -⟩ := n.marked <;> omega

theorem text_ne_nil : n.text ≠ [] := by
  rw [text]
  obtain ⟨-, -, hNe, -⟩ | ⟨hMark, -⟩ | ⟨hMark | hMark, -⟩ := n.marked
  · exact List.append_ne_nil_of_right_ne_nil _ hNe
  · simp [hMark]
  · simp [hMark]
  · simp [hMark]

/-- The text of a number holds digits and the mark of its base, and no
delimiter. -/
theorem plain {c : Char} (h : c ∈ n.text) : digitValue c < 36 := by
  have hMarks : digitValue '0' < 36 ∧ digitValue 'x' < 36 ∧ digitValue 'X' < 36 := by decide
  obtain hMark | hDigit := List.mem_append.mp h
  · obtain ⟨hNone, -⟩ | ⟨hZero, -⟩ | ⟨hHex | hHex, -⟩ := n.marked
    · simp [hNone] at hMark
    · simp only [hZero, List.mem_singleton] at hMark
      exact hMark ▸ hMarks.1
    · simp only [hHex, List.mem_cons, List.not_mem_nil, or_false] at hMark
      obtain rfl | rfl := hMark
      · exact hMarks.1
      · exact hMarks.2.1
    · simp only [hHex, List.mem_cons, List.not_mem_nil, or_false] at hMark
      obtain rfl | rfl := hMark
      · exact hMarks.1
      · exact hMarks.2.2
  · have hBase := n.base_le
    have hBelow := n.below c hDigit
    omega

/-- Digits are read up to the first character that is none. -/
theorem readDigits_append {behind : List Char}
    (hBehind : ∀ c ∈ behind.head?, n.base ≤ digitValue c) :
    readDigits n.base (n.digits ++ behind) = n.value := by
  have hDigits : ∀ d ∈ n.digits.map digitValue, decide (d < n.base) = true := by
    simpa using n.below
  have hStop : (behind.map digitValue).takeWhile (fun d => decide (d < n.base)) = [] := by
    cases behind with
    | nil => rfl
    | cons c behind =>
        have hc := hBehind c rfl
        rw [List.map_cons, List.takeWhile_cons_of_neg (by simpa using hc)]
  rw [readDigits, List.map_append, List.takeWhile_append_of_pos hDigits, hStop, List.append_nil]
  rfl

/-- The number is read to its value, whether the bracket follows it at once
or not. -/
theorem readMagnitude_text {behind : List Char} (hBehind : ∀ c ∈ behind.head?, c = '>') :
    readMagnitude (n.text ++ behind) = n.value := by
  have hClose : ∀ c ∈ behind.head?, 36 ≤ digitValue c := by
    intro c hc
    rw [hBehind c hc]
    decide
  have hBase := n.base_le
  have hRead := n.readDigits_append fun c hc => (by omega : n.base ≤ 36).trans (hClose c hc)
  obtain ⟨hMark, hTen, hNe, hHead⟩ | ⟨hMark, hEight⟩ | ⟨hMark, hSixteen, hNe⟩ := n.marked
  · have hFirst : (n.text ++ behind).head? ≠ some '0' := by
      rw [text, hMark, List.nil_append, List.head?_append_of_ne_nil _ hNe]
      exact hHead
    rw [readMagnitude, if_neg hFirst, text, hMark, List.nil_append, ← hTen, hRead]
  · have hNoMark : ∀ c ∈ (n.digits ++ behind)[0]?, c ≠ 'x' ∧ c ≠ 'X' := by
      intro c hc
      have hLow : digitValue c < 8 ∨ c = '>' := by
        cases hDigits : n.digits with
        | nil =>
            rw [hDigits, List.nil_append, ← List.head?_eq_getElem?] at hc
            exact Or.inr (hBehind c hc)
        | cons d digits =>
            rw [hDigits] at hc
            obtain rfl := Option.some.inj hc
            exact Or.inl (hEight ▸ n.below d (by simp [hDigits]))
      constructor
      · rintro rfl
        exact absurd hLow (by decide)
      · rintro rfl
        exact absurd hLow (by decide)
    have hOctal : ¬(((n.digits ++ behind)[0]? = some 'x' ∨ (n.digits ++ behind)[0]? = some 'X') ∧
        ((n.digits ++ behind)[1]?.map digitValue).getD 36 < 16) := by
      rintro ⟨hx | hX, -⟩
      · exact (hNoMark 'x' hx).1 rfl
      · exact (hNoMark 'X' hX).2 rfl
    have hZero : readDigits 8 ('0' :: (n.digits ++ behind)) =
        readDigits 8 (n.digits ++ behind) := rfl
    have hFirst : ('0' :: (n.digits ++ behind)).head? = some '0' := rfl
    rw [text, hMark, List.singleton_append, List.cons_append, readMagnitude, if_pos hFirst]
    rw [hEight] at hRead
    exact (if_neg hOctal).trans (hZero.trans hRead)
  · obtain ⟨d, digits, hDigits⟩ := List.exists_cons_of_ne_nil hNe
    have hDigit : digitValue d < 16 := hSixteen ▸ n.below d (by simp [hDigits])
    rw [hSixteen, hDigits] at hRead
    obtain hLower | hUpper := hMark
    · rw [text, hLower, hDigits, ← hRead]
      simp [readMagnitude, hDigit]
    · rw [text, hUpper, hDigits, ← hRead]
      simp [readMagnitude, hDigit]

theorem le_toNat_of_plain {c : Char} (h : digitValue c < 36) : 48 ≤ c.toNat := by
  have hOrder : ∀ d : Char, d ≤ c → d.toNat ≤ c.toNat := fun d hd => hd
  unfold digitValue at h
  split at h
  · next hDecimal => exact hOrder '0' hDecimal.1
  · split at h
    · next hLower => exact (by decide : 48 ≤ 'a'.toNat).trans (hOrder 'a' hLower.1)
    · split at h
      · next hUpper => exact (by decide : 48 ≤ 'A'.toNat).trans (hOrder 'A' hUpper.1)
      · omega

/-- A plain character is neither skipped as a space nor taken for a sign. -/
theorem plain_first {c : Char} (h : digitValue c < 36) :
    isSpace c = false ∧ c ≠ '-' ∧ c ≠ '+' := by
  have hHigh := le_toNat_of_plain h
  have hNe : ∀ d : Char, d.toNat < 48 → c ≠ d := by
    rintro d hd rfl
    omega
  refine ⟨?_, hNe '-' (by decide), hNe '+' (by decide)⟩
  rw [isSpace, decide_eq_false_iff_not]
  rintro (hBlank | hControl)
  · exact hNe ' ' (by decide) hBlank
  · omega

/-- A literal is read also where the end of the property is attached to it. -/
theorem strtoul_text {behind : List Char} (hBehind : ∀ c ∈ behind.head?, c = '>') :
    strtoul (n.text ++ behind) = n.value := by
  have hValue : ¬ulongMax < n.value := by
    have hBounded : n.value < 2 ^ 32 := n.bounded
    rw [ulongMax]
    omega
  obtain ⟨c, text, hText⟩ := List.exists_cons_of_ne_nil n.text_ne_nil
  obtain ⟨hSpace, hMinus, hPlus⟩ := plain_first (n.plain (c := c) (by simp [hText]))
  have hRead := n.readMagnitude_text hBehind
  rw [hText] at hRead ⊢
  rw [strtoul, List.cons_append, List.dropWhile_cons_of_neg (by simp [hSpace])]
  simp only [List.head?_cons, Option.some.injEq, hMinus, hPlus, or_self, if_false]
  rw [← List.cons_append, hRead, if_neg hValue]

end Literal

/-- What follows the tag: literals with blanks between them, and the end of
the property behind blanks or attached to the last literal. Behind an
attached end `dtc` writes `;` and the newline, and no blank. -/
structure IdProperty where
  lead : List Char
  literals : List (Literal × List Char)
  behind : List Char
  lead_blank : ∀ c ∈ lead, c ∈ blanks
  gap_blank : ∀ e ∈ literals, ∀ c ∈ e.2, c ∈ blanks
  separated : ∀ e ∈ literals.dropLast, e.2 ≠ []
  attached : ∀ e ∈ literals.getLast?, e.2 = [] → ∀ c ∈ behind, c ∉ blanks

def IdProperty.text (p : IdProperty) : List Char :=
  p.lead ++ (p.literals.flatMap (fun e => e.1.text ++ e.2) ++ '>' :: p.behind)

/-- Numbers by threes. -/
def triples : List UInt32 → List ChipId
  | chipset :: platform :: revNum :: rest => ⟨chipset, platform, revNum⟩ :: triples rest
  | _ => []

/-- The entries of the property. -/
def IdProperty.ids (p : IdProperty) : List ChipId :=
  triples (p.literals.map fun e => UInt32.ofNat e.1.value)

theorem not_blank_of_plain {c : Char} (h : digitValue c < 36) : c ∉ blanks := by
  intro hMem
  have hBlanks : ∀ d ∈ blanks, 36 ≤ digitValue d := List.all_iff_forall_prop.mp (by decide)
  have hBlank := hBlanks c hMem
  omega

/-- A number does not begin with the bracket that ends the list. -/
theorem Literal.head_ne (n : Literal) (behind : List Char) :
    (n.text ++ behind).head? ≠ some '>' := by
  obtain ⟨c, text, hText⟩ := List.exists_cons_of_ne_nil n.text_ne_nil
  have hDigit := n.plain (c := c) (by simp [hText])
  rw [hText, List.cons_append, List.head?_cons]
  rintro ⟨⟩
  exact absurd hDigit (by decide)

/-- The token that closes a property. -/
theorem tokens_closing (behind : List Char) :
    ∀ tok ∈ (Tokens.tokens blanks ('>' :: behind)).head?, tok.head? = some '>' := by
  have hOpen : '>' ∉ blanks := by decide
  obtain ⟨word, rest, hText, hNe, hWord, hRest⟩ := @Tokens.exists_word _ _ blanks behind _ hOpen
  rw [hText, Tokens.tokens_word hNe hWord hRest]
  rintro _ ⟨⟩
  have hHead := congrArg List.head? hText
  rw [List.head?_append_of_ne_nil _ hNe] at hHead
  exact hHead.symm

/-- The last literal, with the end of the property attached. -/
theorem tokens_attached (n : Literal) {behind : List Char} (h : ∀ c ∈ behind, c ∉ blanks) :
    Tokens.tokens blanks (n.text ++ '>' :: behind) = [n.text ++ '>' :: behind] := by
  have hWord : ∀ c ∈ n.text ++ '>' :: behind, c ∉ blanks := by
    intro c hc
    obtain hText | rfl | hMem := by simpa using hc
    · exact not_blank_of_plain (n.plain hText)
    · decide
    · exact h c hMem
  have hToken := @Tokens.tokens_word _ _ blanks _ []
    (List.append_ne_nil_of_left_ne_nil n.text_ne_nil _) hWord nofun
  simpa [Tokens.tokens_nil] using hToken

/-- The tokens of a property: its literals, the last one possibly with the
end attached, and then nothing or the token that closes it. -/
theorem exists_tokens {literals : List (Literal × List Char)} {behind : List Char}
    (hGap : ∀ e ∈ literals, ∀ c ∈ e.2, c ∈ blanks) (hSeparated : ∀ e ∈ literals.dropLast, e.2 ≠ [])
    (hAttached : ∀ e ∈ literals.getLast?, e.2 = [] → ∀ c ∈ behind, c ∉ blanks) :
    ∃ words rest, Tokens.tokens blanks
        (literals.flatMap (fun e => e.1.text ++ e.2) ++ '>' :: behind) = words ++ rest ∧
      words.map strtoul = literals.map (fun e => e.1.value) ∧
      (∀ word ∈ words, word.head? ≠ some '>') ∧
      ∀ tok ∈ rest.head?, tok.head? = some '>' := by
  induction literals with
  | nil =>
      exact ⟨[], Tokens.tokens blanks ('>' :: behind), rfl, rfl, nofun, tokens_closing behind⟩
  | cons e literals ih =>
      obtain ⟨n, gap⟩ := e
      by_cases hLast : literals = [] ∧ gap = []
      · obtain ⟨rfl, rfl⟩ := hLast
        refine ⟨[n.text ++ '>' :: behind], [], ?_, ?_, ?_, nofun⟩
        · simpa using tokens_attached n (hAttached _ rfl rfl)
        · exact congrArg (· :: []) (n.strtoul_text (by simp))
        · rintro word hMem
          rw [List.mem_singleton.mp hMem]
          exact n.head_ne _
      · have hGapNe : gap ≠ [] := by
          intro hNil
          have hMore : literals ≠ [] := fun h => hLast ⟨h, hNil⟩
          refine hSeparated (n, gap) ?_ hNil
          rw [List.dropLast_cons_of_ne_nil hMore]
          exact List.mem_cons_self
        obtain ⟨hGapFirst, hGapRest⟩ := List.forall_mem_cons.mp hGap
        have hSeparatedRest : ∀ e ∈ literals.dropLast, e.2 ≠ [] := fun e hMem =>
          hSeparated e (List.mem_of_mem_tail (by rwa [List.tail_dropLast]))
        have hAttachedRest : ∀ e ∈ literals.getLast?, e.2 = [] → ∀ c ∈ behind, c ∉ blanks := by
          intro e hMem
          apply hAttached e
          rw [List.getLast?_cons, Option.mem_def.mp hMem]
          rfl
        obtain ⟨words, rest, hTokens, hValues, hOpen, hClosed⟩ :=
          ih hGapRest hSeparatedRest hAttachedRest
        refine ⟨n.text :: words, rest, ?_, ?_, ?_, hClosed⟩
        · have hPlain : ∀ c ∈ n.text, c ∉ blanks := fun c hc => not_blank_of_plain (n.plain hc)
          have hBlank : ∀ c ∈ (gap ++ (literals.flatMap (fun e => e.1.text ++ e.2) ++
              '>' :: behind)).head?, c ∈ blanks := by
            intro c hc
            rw [List.head?_append_of_ne_nil _ hGapNe] at hc
            exact hGapFirst c (List.mem_of_mem_head? hc)
          rw [List.flatMap_cons, List.append_assoc, List.append_assoc,
            Tokens.tokens_word n.text_ne_nil hPlain hBlank, Tokens.tokens_gap hGapFirst, hTokens]
          rfl
        · have hValue : strtoul n.text = n.value := by
            simpa using @Literal.strtoul_text n [] nofun
          rw [List.map_cons, hValue, hValues, List.map_cons]
        · rintro word hMem
          obtain rfl | hLater := List.mem_cons.mp hMem
          · simpa using n.head_ne []
          · exact hOpen word hLater

theorem triples_length {values : List UInt32} {k : Nat} (h : values.length = 3 * k) :
    (triples values).length = k := by
  induction k generalizing values with
  | zero =>
      obtain rfl := List.eq_nil_of_length_eq_zero h
      rfl
  | succ k ih =>
      match values with
      | a :: b :: c :: rest =>
          have hRest : rest.length = 3 * k := by
            simp only [List.length_cons] at h
            omega
          rw [triples, List.length_cons, ih hRest]
      | [] | [_] | [_, _] => simp at h <;> omega

/-- Words by threes are entries, up to the token that closes the property. -/
theorem entries_append {words rest : List (List Char)} {k : Nat} (hLength : words.length = 3 * k)
    (hOpen : ∀ word ∈ words, word.head? ≠ some '>')
    (hClosed : ∀ tok ∈ rest.head?, tok.head? = some '>') :
    entries (words ++ rest) = triples (words.map fun word => UInt32.ofNat (strtoul word)) := by
  induction k generalizing words with
  | zero =>
      obtain rfl := List.eq_nil_of_length_eq_zero hLength
      exact @Chain.entries_closed [] rest (by simp) hClosed
  | succ k ih =>
      match words with
      | a :: b :: c :: words =>
          have hRest : words.length = 3 * k := by
            simp only [List.length_cons] at hLength
            omega
          simp only [List.forall_mem_cons] at hOpen
          obtain ⟨ha, hb, hc, hOpen⟩ := hOpen
          rw [List.cons_append, List.cons_append, List.cons_append, entries,
            if_neg (by simp [ha, hb, hc]), ih hRest hOpen]
          rfl
      | [] | [_] | [_, _] => simp at hLength <;> omega

/-- What is read back of the text of a property are its identifiers, whether
the brackets are attached to the numbers or not. -/
theorem IdProperty.entries_text (p : IdProperty) {k : Nat} (hCount : p.literals.length = 3 * k) :
    entries (Tokens.tokens blanks p.text) = p.ids := by
  obtain ⟨words, rest, hTokens, hValues, hOpen, hClosed⟩ :=
    exists_tokens p.gap_blank p.separated p.attached
  have hLength : words.length = 3 * k := by
    have hSame := congrArg List.length hValues
    rw [List.length_map, List.length_map] at hSame
    omega
  have hWords : words.map (fun word => UInt32.ofNat (strtoul word)) =
      p.literals.map fun e => UInt32.ofNat e.1.value := by
    have hMap := congrArg (List.map UInt32.ofNat) hValues
    rw [List.map_map, List.map_map] at hMap
    exact hMap
  rw [text, Tokens.tokens_gap p.lead_blank, hTokens, entries_append hLength hOpen hClosed, hWords,
    ids]

/-- The nodes for a property of `k` triples: the first triple heads the
list, the others follow in some order, and all of them have the first node
for their master. -/
theorem getChipInfo_complete {malloc : Nat → Bool} (hMemory : ∀ i, malloc i = true)
    {lines : List (List Char)} (p : IdProperty) (hLines : Chain.tagged lines = some p.text)
    {k : Nat} (hCount : p.literals.length = 3 * k) (hPos : 0 < k) :
    ∃ chain first head rest, Chain.getChipInfo malloc lines = some chain ∧
      chain.Lists first head rest ∧ rest.length + 1 = k ∧ chain.count = k ∧
      p.ids.head? = some head.id ∧ (rest.map (·.2.id)).Perm p.ids.tail := by
  have hDeclared : declaredIds lines = p.ids := by
    rw [Chain.declaredIds_of_some hLines, p.entries_text hCount]
  have hLength : p.ids.length = k := triples_length (by rw [List.length_map, hCount])
  have hNe : p.ids ≠ [] := List.ne_nil_of_length_pos (by omega)
  obtain ⟨id, others, hIds⟩ := List.exists_cons_of_ne_nil hNe
  obtain ⟨chain, first, head, rest, hFound, hLists, hNodes⟩ :=
    Chain.getChipInfo_lists hMemory (hDeclared ▸ hNe)
  have hHead : some head.id = some id := by
    rw [← List.head?_cons (l := rest.map (·.2.id)), hNodes, head_getChipInfo, hDeclared, hIds,
      List.head?_cons]
  have hPerm := perm_getChipInfo lines
  rw [← hNodes, hDeclared, hIds, Option.some.inj hHead] at hPerm
  have hOthers := hPerm.cons_inv
  have hSame := hOthers.length_eq
  rw [hIds, List.length_cons] at hLength
  rw [List.length_map] at hSame
  refine ⟨chain, first, head, rest, hFound, hLists, by omega, ?_, ?_, ?_⟩
  · rw [hLists.counted]
    omega
  · rw [hIds, hHead, List.head?_cons]
  · rw [hIds]
    exact hOthers

/-- `8000 5 0x20000>;` -/
def boardProperty : IdProperty where
  lead := []
  literals :=
    [(⟨[], 10, "8000".toList, by decide, List.all_iff_forall_prop.mp (by decide), by decide⟩, [' ']),
      (⟨[], 10, ['5'], by decide, List.all_iff_forall_prop.mp (by decide), by decide⟩, [' ']),
      (⟨['0', 'x'], 16, "20000".toList, by decide, List.all_iff_forall_prop.mp (by decide),
        by decide⟩, [])]
  behind := [';', '\n']
  lead_blank := by simp
  gap_blank := by simp [blanks]
  separated := by simp
  attached := by simp [blanks]

/-- The chain of a property with one entry, in two bases, which has a
tabulator in front. -/
theorem getChipInfo_complete_board :
    ∃ chain first head rest,
      Chain.getChipInfo (fun _ => true) ["\tsprd,sc-id = <8000 5 0x20000>;\n".toList] =
        some chain ∧
      chain.Lists first head rest ∧ rest.length + 1 = 1 ∧ chain.count = 1 ∧
      boardProperty.ids.head? = some head.id ∧
      (rest.map (·.2.id)).Perm boardProperty.ids.tail :=
  getChipInfo_complete (fun _ => rfl) boardProperty (by decide) (k := 1) (by decide) (by decide)

end Dtbtool
