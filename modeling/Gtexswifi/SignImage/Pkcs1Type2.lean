import Gtexswifi.SignImage.Pkcs1

/-! The type-2 padding and its check, and the block layout that the check
accepts. The bytes of `get_rand_bytes` are all the same. -/
namespace SignImage

/-- The bytes written; the return value is always 1. -/
def getRandBytes (num : Nat) : List UInt8 := List.replicate num 0xaa

/-- A zero byte is drawn again, and what is drawn then is not zero. -/
def redrawZero (b : UInt8) : UInt8 := if b = 0 then (getRandBytes 1).headD 0 else b

/-- The result is the return value with the contents of `to` afterwards. -/
def paddingAddPKCS1Type2 (dest : List UInt8) (tlen : Nat) (data : List UInt8) (flen : Int) :
    Except Fault (Int × List UInt8) :=
  if (tlen : Int) - 11 < flen then .ok (0, dest)
  else do
    let j := ((tlen : Int) - 3 - flen).toNat
    let dest ← inBounds (Memory.write dest 0 [0, 2])
    let dest ← inBounds (Memory.write dest 2 (getRandBytes j))
    let padding ← inBounds (Memory.slice dest 2 j)
    let dest ← inBounds (Memory.write dest 2 (padding.map redrawZero))
    let dest ← inBounds (Memory.write dest (2 + j) [0])
    let data ← inBounds (Memory.slice data 0 (flen % 2 ^ 32).toNat)
    return (1, ← inBounds (Memory.write dest (3 + j) data))

/-- The scan for the zero byte, with its index and the cells behind it. -/
def scanToZero : Nat → Nat → List UInt8 → Except Fault (Nat × List UInt8)
  | 0, i, p => .ok (i, p)
  | _ + 1, _, [] => .error .outOfBounds
  | remaining + 1, i, b :: p => if b = 0 then .ok (i, p) else scanToZero remaining (i + 1) p

/-- The result is the return value with the contents of `to` afterwards. -/
def paddingCheckPKCS1Type2 (dest : List UInt8) (tlen : Nat) (block : List UInt8) (flen num : Nat) :
    Except Fault (Int × List UInt8) :=
  if num ≠ flen + 1 then .ok (-1, dest)
  else match block with
    | [] => .error .outOfBounds
    | blockType :: p =>
        if blockType ≠ 2 then .ok (-1, dest)
        else do
          let j := flen - 1
          let (i, p) ← scanToZero j 0 p
          if i = j then return (-1, dest)
          else if i < 8 then return (-1, dest)
          else
            let j := j - (i + 1)
            if tlen < j then return (-1, dest)
            else
              let data ← inBounds (Memory.slice p 0 j)
              return (j, ← inBounds (Memory.write dest 0 data))

/-- The data of a block: a byte that is not looked at, the block type, at
least eight bytes that are not zero and a zero byte stand before it. -/
def payloadType2 : List UInt8 → Option (List UInt8)
  | _ :: blockType :: rest =>
      if blockType = 2 then
        match rest.dropWhile (· ≠ 0) with
        | [] => none
        | _ :: data => if 8 ≤ (rest.takeWhile (· ≠ 0)).length then some data else none
      else none
  | _ => none

/-- What the loop over the padding accepts for encryption. The padding has
no zero, and eight bytes at least. -/
theorem payloadType2_eq_some {block data : List UInt8} :
    payloadType2 block = some data ↔
      ∃ first padding, 8 ≤ padding.length ∧ 0 ∉ padding ∧
        block = first :: 2 :: (padding ++ 0 :: data) := by
  constructor
  · intro h
    unfold payloadType2 at h
    split at h
    · next first blockType rest =>
        split at h
        · next hType =>
            split at h
            · cases h
            · next b tail hDrop =>
                split_ifs at h with hLong
                obtain rfl := Option.some.inj h
                obtain rfl : b = 0 := by
                  have hSome : rest.dropWhile (fun b => decide (b ≠ 0)) ≠ [] :=
                    hDrop ▸ List.cons_ne_nil b tail
                  have hHead := List.head_dropWhile_not _ hSome
                  simp only [hDrop, List.head_cons] at hHead
                  simpa using hHead
                refine ⟨first, rest.takeWhile (· ≠ 0), hLong, fun hMem => ?_, ?_⟩
                · simpa using List.all_eq_true.mp List.all_takeWhile _ hMem
                · rw [← hDrop, List.takeWhile_append_dropWhile, hType]
        · cases h
    · cases h
  · rintro ⟨first, padding, hLong, hNonzero, rfl⟩
    have hFill : ∀ b ∈ padding, decide (b ≠ 0) = true := by
      intro b hb
      simpa using fun hZero : b = 0 => hNonzero (hZero ▸ hb)
    have hDrop : (padding ++ 0 :: data).dropWhile (· ≠ 0) = 0 :: data := by
      rw [List.dropWhile_append_of_pos hFill]
      rfl
    have hTake : (padding ++ 0 :: data).takeWhile (· ≠ 0) = padding := by
      rw [List.takeWhile_append_of_pos hFill]
      simp
    simp only [payloadType2, hDrop, hTake, hLong, if_true]

/-- The block of a message: a zero byte, the block type, the padding, a zero
byte, the data. -/
def type2Block (tlen : Nat) (data : List UInt8) : List UInt8 :=
  0 :: 2 :: (getRandBytes (tlen - 3 - data.length) ++ 0 :: data)

theorem length_type2Block {tlen : Nat} {data : List UInt8} (h : data.length + 3 ≤ tlen) :
    (type2Block tlen data).length = tlen := by
  simp only [type2Block, getRandBytes, List.length_cons, List.length_append, List.length_replicate]
  omega

theorem payloadType2_type2Block {tlen : Nat} {data : List UInt8} (h : data.length + 11 ≤ tlen) :
    payloadType2 (type2Block tlen data) = some data := by
  refine payloadType2_eq_some.mpr ⟨0, _, ?_, ?_, rfl⟩
  · rw [getRandBytes, List.length_replicate]
    omega
  · intro hMem
    exact absurd (List.eq_of_mem_replicate hMem) (by decide)

/-- The random bytes are not zero, so none of them is drawn again. -/
theorem map_redrawZero (num : Nat) : (getRandBytes num).map redrawZero = getRandBytes num := by
  rw [getRandBytes, List.map_replicate]
  rfl

/-- A message that leaves room for the padding is put into a block, whatever
the buffer held. -/
theorem paddingAddType2_eq {dest data : List UInt8} {tlen : Nat} (hDest : dest.length = tlen)
    (h : data.length + 11 ≤ tlen) (hInt : tlen < 2 ^ 31) :
    paddingAddPKCS1Type2 dest tlen data data.length = .ok (1, type2Block tlen data) := by
  subst hDest
  have hRoom : ¬(dest.length : Int) - 11 < data.length := by omega
  have hLength : ((data.length : Int) % 2 ^ 32).toNat = data.length := by omega
  have hRead : Memory.slice data 0 data.length = some data := by
    simpa using Memory.slice_zero_append data []
  have hCount : ((dest.length : Int) - 3 - data.length).toNat = dest.length - 3 - data.length := by
    omega
  have hReplicate : (getRandBytes (dest.length - 3 - data.length)).length =
      dest.length - 3 - data.length := List.length_replicate
  have hRedraw := map_redrawZero (dest.length - 3 - data.length)
  simp only [paddingAddPKCS1Type2, if_neg hRoom, hCount, hLength, hRead, type2Block]
  generalize getRandBytes (dest.length - 3 - data.length) = padding at hReplicate hRedraw ⊢
  rw [← hReplicate]
  have hType : Memory.write dest 0 [0, 2] = some ([0, 2] ++ dest.drop 2) :=
    @Memory.write_next _ dest [] [0, 2] 0 rfl (by simp; omega)
  have hFill : Memory.write ([0, 2] ++ dest.drop 2) 2 padding =
      some ([0, 2] ++ padding ++ dest.drop (2 + padding.length)) :=
    Memory.write_next dest rfl (by omega)
  have hDrawn : Memory.slice ([0, 2] ++ padding ++ dest.drop (2 + padding.length)) 2
      padding.length = some padding := Memory.slice_append [0, 2] padding _
  have hAgain : Memory.write ([0, 2] ++ padding ++ dest.drop (2 + padding.length)) 2 padding =
      some ([0, 2] ++ padding ++ dest.drop (2 + padding.length)) :=
    Memory.write_append [0, 2] padding padding _ rfl
  have hEnd : Memory.write ([0, 2] ++ padding ++ dest.drop (2 + padding.length))
      (2 + padding.length) [0] =
        some ([0, 2] ++ padding ++ [0] ++ dest.drop (2 + padding.length + 1)) :=
    Memory.write_next dest (by simp; omega) (by simp; omega)
  have hData : Memory.write ([0, 2] ++ padding ++ [0] ++ dest.drop (2 + padding.length + 1))
      (2 + padding.length + 1) data =
        some ([0, 2] ++ padding ++ [0] ++ data ++
          dest.drop (2 + padding.length + 1 + data.length)) :=
    Memory.write_next dest (by simp; omega) (by omega)
  rw [show 3 + padding.length = 2 + padding.length + 1 by omega, hType]
  simp only [inBounds, ok_bind, hFill, hDrawn, hRedraw, hAgain, hEnd, hData]
  rw [List.drop_of_length_le (by omega)]
  simp

/-- The scan from byte `i` on, as a reading of the cells. -/
theorem scanToZero_eq {p : List UInt8} {remaining i : Nat} (h : p.length = remaining) :
    scanToZero remaining i p =
      .ok (i + (p.takeWhile (· ≠ 0)).length, (p.dropWhile (· ≠ 0)).tail) := by
  induction p generalizing remaining i with
  | nil =>
      obtain rfl := h
      rfl
  | cons b p ih =>
      obtain rfl := h
      rw [List.length_cons, scanToZero]
      by_cases hb : b = 0
      · rw [if_pos hb, List.dropWhile_cons_of_neg (by simpa using hb),
          List.takeWhile_cons_of_neg (by simpa using hb)]
        rfl
      · rw [if_neg hb, ih rfl, List.dropWhile_cons_of_pos (by simpa using hb),
          List.takeWhile_cons_of_pos (by simpa using hb), List.length_cons]
        simp only [Nat.add_assoc, Nat.add_comm 1]

/-- The check stores the data of the block in `dest` and returns its length,
or leaves `dest` as it is and returns -1. -/
theorem paddingCheckType2_eq {text dest : List UInt8} (hText : 2 ≤ text.length) :
    paddingCheckPKCS1Type2 dest text.length text.tail (text.length - 1) text.length =
      match payloadType2 text with
      | none => .ok (-1, dest)
      | some data => do return ((data.length : Int), ← inBounds (Memory.write dest 0 data)) := by
  cases text with
  | nil => cases hText
  | cons first text =>
      cases text with
      | nil => exact absurd hText (Nat.not_succ_le_self 1)
      | cons blockType rest =>
          simp only [paddingCheckPKCS1Type2, List.length_cons, Nat.add_sub_cancel, List.tail_cons]
          rw [if_neg (not_not.mpr rfl)]
          by_cases hType : blockType = 2
          · subst hType
            rw [if_neg (not_not.mpr rfl), scanToZero_eq rfl, ok_bind]
            have hSplit := congrArg List.length
              (List.takeWhile_append_dropWhile (p := (· ≠ (0 : UInt8))) (l := rest))
            simp only [payloadType2, if_true]
            revert hSplit
            generalize rest.takeWhile _ = padding
            generalize rest.dropWhile _ = tail
            intro hSplit
            rw [List.length_append] at hSplit
            cases tail with
            | nil => simp at hSplit; simp [hSplit]
            | cons b data =>
                rw [List.length_cons] at hSplit
                have hEnd : ¬0 + padding.length = rest.length := by omega
                have hData : rest.length - (0 + padding.length + 1) = data.length := by omega
                have hRoom : ¬rest.length + 1 + 1 < data.length := by omega
                by_cases hPadding : 8 ≤ padding.length
                · have hMany : ¬0 + padding.length < 8 := by omega
                  have hRead : Memory.slice data 0 data.length = some data := by
                    simpa using Memory.slice_zero_append data []
                  have hDefined : inBounds (some data) = .ok data := rfl
                  simp only [hEnd, hMany, hData, hRoom, hPadding, if_false, if_true,
                    List.tail_cons, hRead, hDefined, ok_bind]
                · have hFew : 0 + padding.length < 8 := by omega
                  simp only [hEnd, hFew, hPadding, if_false, if_true]
                  rfl
          · simp [payloadType2, hType]

end SignImage
