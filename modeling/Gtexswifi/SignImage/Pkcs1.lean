import Gtexswifi.Library.Memory
import Gtexswifi.SignImage.BigInt

/-! The type-1 padding and its check, and the block layout that the check
accepts. -/
namespace SignImage

def rsaPkcs1PaddingSize : Nat := 11

/-- The result is the return value with the contents of `to` afterwards. -/
def paddingAddPKCS1Type1 (dest : List UInt8) (tlen : Nat) (data : List UInt8) (flen : Int) :
    Except Fault (Int × List UInt8) :=
  if (tlen : Int) - rsaPkcs1PaddingSize < flen then .ok (0, dest)
  else do
    let j := ((tlen : Int) - 3 - flen).toNat
    let dest ← inBounds (Memory.write dest 0 [0, 1])
    let dest ← inBounds (Memory.write dest 2 (List.replicate j 0xff))
    let dest ← inBounds (Memory.write dest (2 + j) [0])
    let data ← inBounds (Memory.slice data 0 (flen % 2 ^ 32).toNat)
    return (1, ← inBounds (Memory.write dest (3 + j) data))

/-- The scan over the padding bytes. It ends at the zero byte, with the
index and the cells behind it, or after the last byte; another byte ends the
check. -/
def scanPadding : Nat → Nat → List UInt8 → Except Fault (Option (Nat × List UInt8))
  | 0, i, p => .ok (some (i, p))
  | _ + 1, _, [] => .error .outOfBounds
  | remaining + 1, i, b :: p =>
      if b ≠ 0xff then
        if b = 0 then .ok (some (i, p)) else .ok none
      else scanPadding remaining (i + 1) p

/-- The result is the return value with the contents of `to` afterwards. -/
def paddingCheckPKCS1Type1 (dest : List UInt8) (tlen : Nat) (block : List UInt8) (flen num : Nat) :
    Except Fault (Int × List UInt8) :=
  if num ≠ flen + 1 then .ok (-1, dest)
  else match block with
    | [] => .error .outOfBounds
    | blockType :: p =>
        if blockType ≠ 1 then .ok (-1, dest)
        else do
          let j := flen - 1
          match ← scanPadding j 0 p with
          | none => return (-1, dest)
          | some (i, p) =>
              if i = j then return (-1, dest)
              else if i < 8 then return (-1, dest)
              else
                let j := j - (i + 1)
                if tlen < j then return (-1, dest)
                else
                  let data ← inBounds (Memory.slice p 0 j)
                  return (j, ← inBounds (Memory.write dest 0 data))

/-- The data of a block: a byte that is not looked at, the block type, at
least eight padding bytes and a zero byte stand before it. -/
def payload : List UInt8 → Option (List UInt8)
  | _ :: blockType :: rest =>
      if blockType = 1 then
        match rest.dropWhile (· = 0xff) with
        | [] => none
        | b :: data =>
            if b = 0 ∧ 8 ≤ (rest.takeWhile (· = 0xff)).length then some data else none
      else none
  | _ => none

/-- What the loop over the padding accepts. The first byte is any, since it
is not looked at. -/
theorem payload_eq_some {block data : List UInt8} :
    payload block = some data ↔
      ∃ first padding, 8 ≤ padding ∧
        block = first :: 1 :: (List.replicate padding 0xff ++ 0 :: data) := by
  constructor
  · intro h
    unfold payload at h
    split at h
    · next first blockType rest =>
        split_ifs at h with hType
        split at h
        · cases h
        · next b tail hDrop =>
            split_ifs at h with hEnd
            obtain rfl := Option.some.inj h
            have hFill : rest.takeWhile (· = 0xff) =
                List.replicate (rest.takeWhile (· = 0xff)).length 0xff :=
              List.eq_replicate_iff.mpr ⟨rfl, fun b hb => by
                simpa using List.all_eq_true.mp List.all_takeWhile b hb⟩
            refine ⟨first, _, hEnd.2, ?_⟩
            rw [← hFill, ← hEnd.1, ← hDrop, List.takeWhile_append_dropWhile, hType]
    · cases h
  · rintro ⟨first, padding, hPadding, rfl⟩
    have hFill : ∀ b ∈ List.replicate padding (0xff : UInt8), decide (b = 0xff) = true := by
      intro b hb
      simpa using List.eq_of_mem_replicate hb
    have hDrop : (List.replicate padding (0xff : UInt8) ++ 0 :: data).dropWhile (· = 0xff) =
        0 :: data := by
      rw [List.dropWhile_append_of_pos hFill]
      rfl
    have hTake : (List.replicate padding (0xff : UInt8) ++ 0 :: data).takeWhile (· = 0xff) =
        List.replicate padding 0xff := by
      rw [List.takeWhile_append_of_pos hFill]
      simp
    simp [payload, hDrop, hTake, hPadding]

/-- The block of a message: a zero byte, the block type, the padding, a zero
byte, the data. -/
def type1Block (tlen : Nat) (data : List UInt8) : List UInt8 :=
  0 :: 1 :: (List.replicate (tlen - 3 - data.length) 0xff ++ 0 :: data)

theorem length_type1Block {tlen : Nat} {data : List UInt8} (h : data.length + 3 ≤ tlen) :
    (type1Block tlen data).length = tlen := by
  simp only [type1Block, List.length_cons, List.length_append, List.length_replicate]
  omega

/-- A message that leaves room for the padding is put into a block, whatever
the buffer held. -/
theorem paddingAdd_eq {dest data : List UInt8} {tlen : Nat} (hDest : dest.length = tlen)
    (h : data.length + 11 ≤ tlen) (hInt : tlen < 2 ^ 31) :
    paddingAddPKCS1Type1 dest tlen data data.length = .ok (1, type1Block tlen data) := by
  subst hDest
  have hRoom : ¬(dest.length : Int) - rsaPkcs1PaddingSize < data.length := by
    rw [rsaPkcs1PaddingSize]
    omega
  have hLength : ((data.length : Int) % 2 ^ 32).toNat = data.length := by omega
  have hRead : Memory.slice data 0 data.length = some data := by
    simpa using Memory.slice_zero_append data []
  have hCount : ((dest.length : Int) - 3 - data.length).toNat = dest.length - 3 - data.length := by
    omega
  have hReplicate := List.length_replicate (n := dest.length - 3 - data.length) (a := (0xff : UInt8))
  simp only [paddingAddPKCS1Type1, if_neg hRoom, hCount, hLength, hRead, type1Block]
  generalize List.replicate (dest.length - 3 - data.length) (0xff : UInt8) = padding at hReplicate ⊢
  rw [← hReplicate]
  have hType : Memory.write dest 0 [0, 1] = some ([0, 1] ++ dest.drop 2) :=
    @Memory.write_next _ dest [] [0, 1] 0 rfl (by simp; omega)
  have hFill : Memory.write ([0, 1] ++ dest.drop 2) 2 padding =
      some ([0, 1] ++ padding ++ dest.drop (2 + padding.length)) :=
    Memory.write_next dest rfl (by omega)
  have hEnd : Memory.write ([0, 1] ++ padding ++ dest.drop (2 + padding.length))
      (2 + padding.length) [0] =
        some ([0, 1] ++ padding ++ [0] ++ dest.drop (2 + padding.length + 1)) :=
    Memory.write_next dest (by simp; omega) (by simp; omega)
  have hData : Memory.write ([0, 1] ++ padding ++ [0] ++ dest.drop (2 + padding.length + 1))
      (2 + padding.length + 1) data =
        some ([0, 1] ++ padding ++ [0] ++ data ++
          dest.drop (2 + padding.length + 1 + data.length)) :=
    Memory.write_next dest (by simp; omega) (by omega)
  rw [show 3 + padding.length = 2 + padding.length + 1 by omega, hType]
  simp only [inBounds, ok_bind, hFill, hEnd, hData]
  rw [List.drop_of_length_le (by omega)]
  simp

theorem length_of_payload {block data : List UInt8} (h : payload block = some data) :
    data.length + 11 ≤ block.length := by
  obtain ⟨first, padding, hPadding, rfl⟩ := payload_eq_some.mp h
  simp only [List.length_cons, List.length_append, List.length_replicate]
  omega

/-- The check reads everything behind the first byte. -/
theorem payload_eq_some_iff_tail {block data : List UInt8} (h : data.length + 11 ≤ block.length) :
    payload block = some data ↔ block.tail = (type1Block block.length data).tail := by
  rw [payload_eq_some]
  constructor
  · rintro ⟨first, padding, -, hBlock⟩
    have hLength := congrArg List.length hBlock
    simp only [List.length_cons, List.length_append, List.length_replicate] at hLength
    rw [type1Block, show block.length - 3 - data.length = padding by omega, hBlock]
    rfl
  · intro hTail
    cases block with
    | nil => cases h
    | cons first rest =>
        exact ⟨first, _, by omega, congrArg (first :: ·) hTail⟩

/-- The scan from padding byte `i` on, as a reading of the cells. -/
theorem scanPadding_eq {p : List UInt8} {remaining i : Nat} (h : p.length = remaining) :
    scanPadding remaining i p =
      .ok (match p.dropWhile (· = 0xff) with
        | [] => some (i + remaining, [])
        | b :: rest =>
            if b = 0 then some (i + (p.takeWhile (· = 0xff)).length, rest) else none) := by
  induction p generalizing remaining i with
  | nil =>
      obtain rfl := h
      rfl
  | cons b p ih =>
      obtain rfl := h
      rw [List.length_cons, scanPadding]
      by_cases hb : b = 0xff
      · rw [if_neg (not_not.mpr hb), ih rfl, List.dropWhile_cons_of_pos (by simpa using hb),
          List.takeWhile_cons_of_pos (by simpa using hb), List.length_cons]
        simp only [Nat.add_assoc, Nat.add_comm 1]
      · rw [if_pos hb, List.dropWhile_cons_of_neg (by simpa using hb),
          List.takeWhile_cons_of_neg (by simpa using hb)]
        dsimp only
        split <;> rfl

/-- The check stores the data of the block in `dest` and returns its length,
or leaves `dest` as it is and returns -1. -/
theorem paddingCheck_eq {text dest : List UInt8} (hText : 2 ≤ text.length) :
    paddingCheckPKCS1Type1 dest text.length text.tail (text.length - 1) text.length =
      match payload text with
      | none => .ok (-1, dest)
      | some data => do return ((data.length : Int), ← inBounds (Memory.write dest 0 data)) := by
  cases text with
  | nil => cases hText
  | cons first text =>
      cases text with
      | nil => exact absurd hText (Nat.not_succ_le_self 1)
      | cons blockType rest =>
          simp only [paddingCheckPKCS1Type1, List.length_cons, Nat.add_sub_cancel, List.tail_cons]
          rw [if_neg (not_not.mpr rfl)]
          by_cases hType : blockType = 1
          · subst hType
            rw [if_neg (not_not.mpr rfl), scanPadding_eq rfl, ok_bind]
            have hSplit := congrArg List.length
              (List.takeWhile_append_dropWhile (p := (· = (0xff : UInt8))) (l := rest))
            simp only [payload]
            revert hSplit
            generalize rest.takeWhile _ = padding
            generalize rest.dropWhile _ = tail
            intro hSplit
            rw [List.length_append] at hSplit
            cases tail with
            | nil => simp
            | cons b data =>
                rw [List.length_cons] at hSplit
                have hEnd : ¬padding.length = rest.length := by omega
                have hData : rest.length - (padding.length + 1) = data.length := by omega
                have hRoom : ¬rest.length + 1 + 1 < data.length := by omega
                by_cases hb : b = 0
                · by_cases hPadding : 8 ≤ padding.length
                  · have hMany : ¬padding.length < 8 := by omega
                    have hRead : Memory.slice data 0 data.length = some data := by
                      simpa using Memory.slice_zero_append data []
                    have hDefined : inBounds (some data) = .ok data := rfl
                    simp [hb, hEnd, hMany, hData, hRoom, hPadding, hRead, hDefined]
                  · have hFew : padding.length < 8 := by omega
                    simp [hb, hEnd, hFew, hPadding]
                · simp [hb]
          · simp [payload, hType]

end SignImage
