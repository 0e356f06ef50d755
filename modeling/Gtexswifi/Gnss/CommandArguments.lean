import Gtexswifi.Gnss.GpsPcMode
import Gtexswifi.Library.Memory

/-! `get_sub_str_colon` at work on the arrays of `gps_eut_parse`. `none` is
a copy that leaves its array. -/
namespace Gnss

open Tokens

/-- The arrays of the arguments, and the sizes of the copies made into them
so far. -/
structure Arguments where
  revdata : List (List UInt8)
  copied : List Int
  deriving DecidableEq

/-- `memcpy` with an `int` for the size. A negative one is converted to more
than there is. -/
def memcpy (dest buf : List UInt8) (start : Nat) (len : Int) : Option (List UInt8) :=
  if len < 0 then none
  else (Memory.slice buf start len.toNat).bind (Memory.write dest 0)

/-- `strncpy` fills up with zeros. -/
def strncpy (dest text : List UInt8) (n : Nat) : Option (List UInt8) :=
  Memory.write dest 0 (text.take n ++ List.replicate (n - text.length) 0)

def Arguments.copy (s : Arguments) (index : Nat) (len : Int)
    (store : List UInt8 → Option (List UInt8)) : Option Arguments := do
  let dest ← s.revdata[index]?
  let dest ← store dest
  return ⟨s.revdata.set index dest, s.copied ++ [len]⟩

/-- The loop over the tokens that `strtok` delivers. -/
def copyTokens (count substrMaxLen : Nat) :
    Nat → List (List UInt8) → Arguments → Option Arguments
  | _, [], s => some s
  | index, token :: rest, s =>
      if index < count then do
        let s ← s.copy index substrMaxLen fun dest => strncpy dest token substrMaxLen
        copyTokens count substrMaxLen (index + 1) rest s
      else some s

/-- `len`, from the positions of the two characters. -/
def nameLength (buf : List UInt8) (a delim : UInt8) : Int :=
  (buf.idxOf delim + 1 : Int) - (buf.idxOf a + 1) - 1

def copySubStrColon (buf : List UInt8) (revdata : List (List UInt8)) (a delim : UInt8)
    (count substrMaxLen : Nat) : Option Arguments :=
  if delim ∉ buf then some ⟨revdata, []⟩
  else if a ∉ buf then some ⟨revdata, []⟩
  else do
    let len := nameLength buf a delim
    let s ← Arguments.copy ⟨revdata, []⟩ 0 len fun dest => memcpy dest buf (buf.idxOf a + 1) len
    copyTokens count substrMaxLen 1 (tokens [colon] (buf.drop (buf.idxOf delim + 1))) s

/-- An array that `gps_eut_parse` has cleared. -/
def cleared : List UInt8 := List.replicate 33 0

/-- The copies of `gps_eut_parse`. -/
def eutArguments (buf : List UInt8) : Option Arguments :=
  copySubStrColon buf (List.replicate 4 cleared) equalsSign comma 4 32

/-- Every copy has between 0 and 32 bytes, and leaves an array with a zero
in it. -/
def Arguments.InBounds (s : Arguments) : Prop :=
  (∀ len ∈ s.copied, 0 ≤ len ∧ len ≤ 32) ∧ s.revdata.length = 4 ∧
    ∀ arg ∈ s.revdata, arg.length = 33 ∧ 0 ∈ arg

/-- The command is split inside the arrays, and the length of its name is
from 0 to 32. -/
def SplitsInBounds (buf : List UInt8) : Prop :=
  (∃ s, eutArguments buf = some s ∧ s.InBounds) ∧
    (comma ∈ buf → equalsSign ∈ buf →
      0 ≤ nameLength buf equalsSign comma ∧ nameLength buf equalsSign comma ≤ 32)

/-- The name stands in front of the comma, and has at most 32 characters. -/
def NameFits (buf : List UInt8) : Prop :=
  buf.idxOf equalsSign < buf.idxOf comma ∧ buf.idxOf comma ≤ buf.idxOf equalsSign + 33

/-- A cleared array behind a store at its start. -/
def padded (text : List UInt8) : List UInt8 := text ++ List.replicate (33 - text.length) 0

theorem write_cleared {text : List UInt8} (h : text.length ≤ 33) :
    Memory.write cleared 0 text = some (padded text) := by
  have hSplit : cleared =
      [] ++ List.replicate text.length 0 ++ List.replicate (33 - text.length) 0 := by
    rw [List.nil_append, List.replicate_append_replicate, Nat.add_sub_cancel' h, cleared]
  rw [hSplit]
  exact Memory.write_append [] _ text _ (by rw [List.length_replicate])

/-- Of an argument at most 32 characters are copied, so that a zero is left
behind it. -/
theorem strncpy_cleared (text : List UInt8) :
    strncpy cleared text 32 = some (padded (text.take 32)) := by
  have hLength : (text.take 32 ++ List.replicate (32 - text.length) (0 : UInt8)).length = 32 := by
    simp only [List.length_append, List.length_take, List.length_replicate]
    omega
  have hPadding : 33 - (text.take 32).length = (32 - text.length) + 1 := by
    rw [List.length_take]
    omega
  rw [strncpy, write_cleared (by omega), padded, hLength, padded, hPadding,
    List.replicate_add, List.append_assoc]

theorem length_padded {text : List UInt8} (h : text.length ≤ 33) : (padded text).length = 33 := by
  simp only [padded, List.length_append, List.length_replicate]
  omega

/-- A text of up to 32 characters has its terminator in the array. -/
theorem zero_mem_padded {text : List UInt8} (h : text.length ≤ 32) : 0 ∈ padded text :=
  List.mem_append_right text (List.mem_replicate.mpr ⟨by omega, rfl⟩)

/-- A copy into the first of the arrays that are still cleared. -/
theorem copy_next (filled : List (List UInt8)) (copied : List Int) (n : Nat) (len : Int)
    (store : List UInt8 → Option (List UInt8)) {arg : List UInt8} (h : store cleared = some arg) :
    Arguments.copy ⟨filled ++ List.replicate (n + 1) cleared, copied⟩
        filled.length len store =
      some ⟨(filled ++ [arg]) ++ List.replicate n cleared, copied ++ [len]⟩ := by
  unfold Arguments.copy
  simp [List.replicate_succ, h]

/-- The arguments behind the name, each of at most 32 characters. -/
theorem copyTokens_cleared (texts filled : List (List UInt8)) {n : Nat}
    (hCount : filled.length + n = 4) (copied : List Int) :
    copyTokens 4 32 filled.length texts
        ⟨filled ++ List.replicate n cleared, copied⟩ =
      some ⟨filled ++ ((texts.take n).map fun text => padded (text.take 32)) ++
          List.replicate (n - texts.length) cleared,
        copied ++ List.replicate (min n texts.length) 32⟩ := by
  induction texts generalizing filled n copied with
  | nil => simp [copyTokens]
  | cons text texts ih =>
      cases n with
      | zero => simp [copyTokens, ← hCount]
      | succ n =>
          have hNext := copy_next filled copied n (32 : Nat) (fun dest => strncpy dest text 32)
            (strncpy_cleared text)
          have hCounted : (filled ++ [padded (text.take 32)]).length + n = 4 := by
            rw [List.length_append, List.length_singleton]
            omega
          have hRest := ih _ hCounted (copied ++ [((32 : Nat) : Int)])
          rw [List.length_append, List.length_singleton] at hRest
          rw [copyTokens, if_pos (by omega)]
          change (Arguments.copy _ _ _ _).bind _ = _
          rw [hNext, Option.bind_some, hRest]
          simp [List.replicate_succ, Nat.succ_min_succ]

/-- The name as the code finds it, for the positions of the two characters. -/
def nameOf (buf : List UInt8) : List UInt8 :=
  (buf.drop (buf.idxOf equalsSign + 1)).take (nameLength buf equalsSign comma).toNat

/-- The tokens that are arguments. -/
def argTokens (buf : List UInt8) : List (List UInt8) :=
  (tokens [colon] (buf.drop (buf.idxOf comma + 1))).take 3

theorem length_nameOf_le (buf : List UInt8) :
    (nameOf buf).length ≤ (nameLength buf equalsSign comma).toNat := List.length_take_le _ _

/-- The name is copied where its length is that of a name, and its array
holds it. -/
theorem memcpy_name {buf : List UInt8} (hComma : comma ∈ buf) :
    memcpy cleared buf (buf.idxOf equalsSign + 1) (nameLength buf equalsSign comma) =
      if nameLength buf equalsSign comma < 0 ∨ 33 < nameLength buf equalsSign comma then none
      else some (padded (nameOf buf)) := by
  have hIndex := List.idxOf_lt_length_of_mem hComma
  have hLength : nameLength buf equalsSign comma = buf.idxOf comma - buf.idxOf equalsSign - 1 := by
    unfold nameLength
    omega
  unfold memcpy
  by_cases hNegative : nameLength buf equalsSign comma < 0
  · rw [if_pos hNegative, if_pos (Or.inl hNegative)]
  · have hSlice : Memory.slice buf (buf.idxOf equalsSign + 1)
        (nameLength buf equalsSign comma).toNat = some (nameOf buf) :=
      Memory.slice_eq_some (by omega)
    rw [if_neg hNegative, hSlice, Option.bind_some]
    have hName := Memory.length_of_slice hSlice
    by_cases hLong : 33 < nameLength buf equalsSign comma
    · rw [if_pos (Or.inr hLong), Memory.write, if_neg]
      rw [cleared, List.length_replicate]
      omega
    · rw [if_neg (by omega), write_cleared (by omega)]

/-- With a comma and an equals sign, the code copies as many characters as
stand between the first ones of each, be that negative or too many. -/
theorem eutArguments_of_mem {buf : List UInt8} (hComma : comma ∈ buf)
    (hEquals : equalsSign ∈ buf) :
    eutArguments buf =
      if nameLength buf equalsSign comma < 0 ∨ 33 < nameLength buf equalsSign comma then none
      else some ⟨padded (nameOf buf) :: (argTokens buf).map (fun text => padded (text.take 32)) ++
          List.replicate (3 - (argTokens buf).length) cleared,
        nameLength buf equalsSign comma :: List.replicate (argTokens buf).length 32⟩ := by
  unfold eutArguments copySubStrColon
  rw [if_neg (not_not.mpr hComma), if_neg (not_not.mpr hEquals)]
  split
  · next hBad =>
      have hName := memcpy_name hComma
      rw [if_pos hBad] at hName
      simp [Arguments.copy, hName]
  · next hGood =>
      have hName := memcpy_name hComma
      rw [if_neg hGood] at hName
      have hFirst := copy_next [] [] 3 (nameLength buf equalsSign comma)
        (fun dest => memcpy dest buf (buf.idxOf equalsSign + 1)
          (nameLength buf equalsSign comma)) hName
      have hRest := copyTokens_cleared (tokens [colon] (buf.drop (buf.idxOf comma + 1)))
        [padded (nameOf buf)] (n := 3) rfl [nameLength buf equalsSign comma]
      refine (congrArg (Option.bind · _) hFirst).trans (hRest.trans ?_)
      simp [argTokens]
      omega

/-- Without one of the characters nothing is copied. -/
theorem eutArguments_of_notMem {buf : List UInt8} (h : comma ∉ buf ∨ equalsSign ∉ buf) :
    eutArguments buf = some ⟨List.replicate 4 cleared, []⟩ := by
  unfold eutArguments copySubStrColon
  by_cases hComma : comma ∉ buf
  · rw [if_pos hComma]
  · rw [if_neg hComma, if_pos (h.resolve_left hComma)]

/-- The arrays that hold the pieces of a command. -/
def Pieces.arrays (pieces : Pieces) : List (List UInt8) :=
  padded pieces.name :: pieces.args.map padded ++ List.replicate (3 - pieces.args.length) cleared

/-- The commands that `get_sub_str_colon` can take apart are those whose
copies stay in their arrays, and the arrays hold the pieces. -/
theorem eutArguments_pieces (buf : List UInt8) :
    (eutArguments buf).map Arguments.revdata = (getSubStrColon buf).map Pieces.arrays := by
  unfold getSubStrColon
  by_cases hMem : comma ∉ buf ∨ equalsSign ∉ buf
  · rw [eutArguments_of_notMem hMem, if_pos hMem]
    rfl
  · have hBoth : comma ∈ buf ∧ equalsSign ∈ buf := by simpa using hMem
    have hLength : (buf.idxOf comma : Int) - (buf.idxOf equalsSign + 1 : Nat) =
        nameLength buf equalsSign comma := by
      unfold nameLength
      omega
    rw [eutArguments_of_mem hBoth.1 hBoth.2, if_neg hMem]
    dsimp only
    rw [hLength]
    split
    · rfl
    · simp [Pieces.arrays, nameOf, argTokens, Function.comp_def]

/-- Where the name fits, each of the arrays holds a string that ends in it. -/
theorem arrays_inBounds {name : List UInt8} (hName : name.length ≤ 32) (texts : List (List UInt8)) :
    ∀ arg ∈ padded name :: (texts.map fun text => padded (text.take 32)) ++
      List.replicate (3 - texts.length) cleared, arg.length = 33 ∧ 0 ∈ arg := by
  have hCleared : cleared = padded [] := rfl
  have hPadded {text : List UInt8} (h : text.length ≤ 32) :
      (padded text).length = 33 ∧ 0 ∈ padded text := ⟨length_padded (by omega), zero_mem_padded h⟩
  intro arg hArg
  simp only [List.cons_append, List.mem_cons, List.mem_append, List.mem_map,
    List.mem_replicate] at hArg
  rcases hArg with rfl | ⟨text, -, rfl⟩ | ⟨-, rfl⟩
  · exact hPadded hName
  · exact hPadded (List.length_take_le 32 text)
  · exact hCleared ▸ hPadded (Nat.zero_le 32)

/-- The length that is computed is neither negative nor too large exactly if
the name fits. -/
theorem nameLength_iff (buf : List UInt8) :
    0 ≤ nameLength buf equalsSign comma ∧ nameLength buf equalsSign comma ≤ 32 ↔ NameFits buf := by
  unfold nameLength NameFits
  omega

/-- A command is split inside its arrays exactly where it has no name to
copy or a name that fits. -/
theorem splitsInBounds_iff (buf : List UInt8) :
    SplitsInBounds buf ↔ comma ∉ buf ∨ equalsSign ∉ buf ∨ NameFits buf := by
  by_cases hMem : comma ∉ buf ∨ equalsSign ∉ buf
  · have hZero : 0 ∈ cleared := by decide
    have hCleared : Arguments.InBounds ⟨List.replicate 4 cleared, []⟩ := by
      refine ⟨by simp, rfl, fun arg hArg => ?_⟩
      rw [List.eq_of_mem_replicate hArg]
      exact ⟨rfl, hZero⟩
    have hSplits : SplitsInBounds buf :=
      ⟨⟨_, eutArguments_of_notMem hMem, hCleared⟩, fun hComma hEquals => by tauto⟩
    exact iff_of_true hSplits (by tauto)
  · have hBoth : comma ∈ buf ∧ equalsSign ∈ buf := by simpa using hMem
    have hSplit := eutArguments_of_mem hBoth.1 hBoth.2
    constructor
    · intro h
      exact Or.inr (Or.inr ((nameLength_iff buf).mp (h.2 hBoth.1 hBoth.2)))
    · intro h
      have hFits := (nameLength_iff buf).mpr ((h.resolve_left (by tauto)).resolve_left (by tauto))
      have hShort := length_nameOf_le buf
      rw [if_neg (by omega)] at hSplit
      refine ⟨⟨_, hSplit, ?_, ?_, arrays_inBounds (by omega) (argTokens buf)⟩, fun _ _ => hFits⟩
      · intro len hLen
        rcases List.mem_cons.mp hLen with rfl | hArg
        · exact hFits
        · rw [List.eq_of_mem_replicate hArg]
          decide
      · have hCount : (argTokens buf).length ≤ 3 := List.length_take_le 3 _
        simp
        omega

/-- With the comma in front of the equals sign the name has the length -2,
and a name of 33 characters fills its array. -/
theorem commaFirst_outOfBounds :
    eutArguments (Numerals.ascii "EUT,=1") = none ∧
      ¬SplitsInBounds (Numerals.ascii "EUT,=1") ∧
      ¬SplitsInBounds (equalsSign :: List.replicate 33 0x41 ++ [comma]) := by
  refine ⟨by decide, ?_, ?_⟩
  · intro h
    exact absurd (h.2 (by decide) (by decide)) (by decide)
  · intro h
    exact absurd (h.2 (by decide) (by decide)) (by decide)

end Gnss
