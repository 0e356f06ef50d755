import Gtexswifi.Library.BlockHash
import Gtexswifi.SignImage.Sha256

/-! The streaming of SHA-256 against the hash of the whole message: the
message is padded to full blocks, and the blocks are compressed one after
the other. -/
namespace SignImage

open Sampling BlockHash

/-- The zeros behind the one bit: as few as leave the length its place in
the last block. -/
def paddingZeros (length : Nat) : Nat := (119 - length % 64) % 64

/-- The message, a one bit, zeros, and the length in bits. -/
def paddedMessage (message : List UInt8) : List UInt8 :=
  message ++ ([0x80] ++ List.replicate (paddingZeros message.length) 0 ++
    store64H (message.length * 8).toUInt64)

def HashWords.bytes (s : HashWords) : List UInt8 :=
  store32H s.a ++ store32H s.b ++ store32H s.c ++ store32H s.d ++
    store32H s.e ++ store32H s.f ++ store32H s.g ++ store32H s.h

/-- The chaining value behind the full blocks of a stream. -/
def chainingValue (stream : List UInt8) : HashWords :=
  (windows 64 stream).foldl sha256Compress sha256Init.state

/-- The hash of a message. -/
def messageDigest (message : List UInt8) : List UInt8 :=
  (chainingValue (paddedMessage message)).bytes

@[simp] theorem length_store64H (x : UInt64) : (store64H x).length = 8 := rfl

/-- The state in which a message has been processed. -/
def Sha256State.of (message : List UInt8) : Sha256State where
  length := (512 * (message.length / 64)).toUInt64
  state := chainingValue message
  buf := rest 64 message
  curlen_lt := length_rest_lt (by decide) message

/-- The counter wraps round in 64 bits, and sums do so with it. -/
theorem toUInt64_add (a b : Nat) : a.toUInt64 + b.toUInt64 = (a + b).toUInt64 :=
  (UInt64.ofNat_add a b).symm

theorem toUInt64_blocks (length : UInt64) (blocks : Nat) :
    length + 512 + (512 * blocks).toUInt64 = length + (512 * (blocks + 1)).toUInt64 := by
  rw [Nat.mul_succ, ← toUInt64_add, UInt64.add_comm (512 * blocks).toUInt64, UInt64.add_assoc]
  rfl

/-- What the state holds of the stream so far. -/
def Sha256State.absorbed (md : Sha256State) : Absorbed HashWords UInt8 := ⟨md.state, md.buf⟩

/-- The passes over an input absorb it, and count the bits of each block
they complete. -/
theorem processLoop_eq {passes : Nat} (md : Sha256State) {input : List UInt8}
    (hPasses : input.length ≤ passes) :
    (processLoop passes md input).length =
        md.length + (512 * ((md.buf ++ input).length / 64)).toUInt64 ∧
      (processLoop passes md input).absorbed = absorb sha256Compress 64 md.absorbed input := by
  have hDone (md : Sha256State) :
      md.length = md.length + (512 * ((md.buf ++ []).length / 64)).toUInt64 ∧
        md.absorbed = absorb sha256Compress 64 md.absorbed [] := by
    simp only [absorb, Sha256State.absorbed, List.append_nil, windows_of_lt md.curlen_lt,
      rest_of_lt md.curlen_lt, Nat.div_eq_of_lt md.curlen_lt]
    simp
  induction passes generalizing md input with
  | zero =>
      obtain rfl := List.eq_nil_of_length_eq_zero (Nat.le_zero.mp hPasses)
      exact hDone md
  | succ passes ih =>
      have hBuf := md.curlen_lt
      rw [processLoop]
      split
      · next hNone =>
          obtain rfl := List.eq_nil_of_length_eq_zero hNone
          exact hDone md
      · next hSome =>
          split
          · next hDirect =>
              -- a whole block of the input, compressed where it stands
              obtain ⟨hEmpty, hBlock⟩ := hDirect
              have hNil := List.eq_nil_of_length_eq_zero hEmpty
              have hCount : input.length / 64 = (input.drop 64).length / 64 + 1 := by
                rw [List.length_drop]
                omega
              have hPasses' : (input.drop 64).length ≤ passes := by
                rw [List.length_drop]
                omega
              rw [(ih _ hPasses').1, (ih _ hPasses').2]
              simp only [absorb, Sha256State.absorbed, hNil, List.nil_append]
              rw [windows_of_le (by decide) hBlock, rest_of_le (by decide) hBlock, hCount,
                ← toUInt64_blocks, List.foldl_cons]
              exact ⟨rfl, rfl⟩
          · next hBuffered =>
              dsimp only
              split
              · next hFull =>
                  -- the block in the buffer has become full
                  rw [List.length_append, List.length_take] at hFull
                  have hTake : (md.buf ++ input).take 64 =
                      md.buf ++ input.take (min input.length (64 - md.buf.length)) := by
                    rw [List.take_append, List.take_of_length_le (Nat.le_of_lt hBuf)]
                    congr 2
                    omega
                  have hDrop : (md.buf ++ input).drop 64 =
                      input.drop (min input.length (64 - md.buf.length)) := by
                    rw [List.drop_append, List.drop_of_length_le (Nat.le_of_lt hBuf),
                      List.nil_append]
                    congr 1
                    omega
                  have hBlock : 64 ≤ (md.buf ++ input).length := by
                    rw [List.length_append]
                    omega
                  have hCount : (md.buf ++ input).length / 64 =
                      ((md.buf ++ input).drop 64).length / 64 + 1 := by
                    rw [List.length_drop]
                    omega
                  rw [(ih _ (by rw [List.length_drop]; omega)).1,
                    (ih _ (by rw [List.length_drop]; omega)).2]
                  simp only [absorb, Sha256State.absorbed, List.nil_append]
                  rw [windows_of_le (by decide) hBlock, rest_of_le (by decide) hBlock, hCount,
                    ← toUInt64_blocks, List.foldl_cons, hTake, hDrop]
                  exact ⟨rfl, rfl⟩
              · next hShort =>
                  -- the input has been used up
                  rw [List.length_append, List.length_take] at hShort
                  have hAll : min input.length (64 - md.buf.length) = input.length := by omega
                  have hNone : input.drop (min input.length (64 - md.buf.length)) = [] := by
                    rw [hAll, List.drop_length]
                  have hWhole : md.buf ++ input.take (min input.length (64 - md.buf.length)) =
                      md.buf ++ input := by
                    rw [hAll, List.take_length]
                  rw [hNone, (ih _ (Nat.zero_le _)).1, (ih _ (Nat.zero_le _)).2]
                  simp only [absorb, Sha256State.absorbed, hWhole, List.append_nil]
                  exact ⟨trivial, trivial⟩

theorem sha256Init_eq : sha256Init = .of [] := rfl

/-- What has been processed is what the start has absorbed of it. -/
theorem absorbed_of (message : List UInt8) :
    (Sha256State.of message).absorbed = absorb sha256Compress 64 sha256Init.absorbed message := rfl

/-- A piece goes behind what has been processed. -/
theorem sha256Process_of (message input : List UInt8) :
    sha256Process (.of message) input = .of (message ++ input) := by
  have hCount : (message ++ input).length / 64 =
      message.length / 64 + (rest 64 message ++ input).length / 64 := by
    rw [List.length_append, List.length_append, length_rest]
    omega
  obtain ⟨hLength, hAbsorbed⟩ := processLoop_eq (.of message) (Nat.le_refl input.length)
  have hSame : (sha256Process (.of message) input).absorbed =
      (Sha256State.of (message ++ input)).absorbed := by
    rw [sha256Process, hAbsorbed, absorbed_of, ← absorb_append (by decide), ← absorbed_of]
  apply Sha256State.ext
  · rw [sha256Process, hLength]
    simp only [Sha256State.of]
    rw [toUInt64_add, ← Nat.mul_add, hCount]
  · exact congrArg Absorbed.chaining hSame
  · exact congrArg Absorbed.waiting hSame

theorem sha256Process_pieces (message : List UInt8) (pieces : List (List UInt8)) :
    pieces.foldl sha256Process (.of message) = .of (message ++ pieces.flatten) := by
  induction pieces generalizing message with
  | nil => rw [List.flatten_nil, List.append_nil, List.foldl_nil]
  | cons piece pieces ih =>
      rw [List.foldl_cons, sha256Process_of, ih, List.flatten_cons, List.append_assoc]

theorem windows_block {block : List UInt8} (h : block.length = 64) :
    windows 64 block = [block] := by
  rw [windows_of_le (by decide) (Nat.le_of_eq h.symm), List.take_of_length_le (Nat.le_of_eq h),
    List.drop_of_length_le (Nat.le_of_eq h), windows_nil]

theorem windows_blocks {first second : List UInt8} (hFirst : first.length = 64)
    (hSecond : second.length = 64) : windows 64 (first ++ second) = [first, second] := by
  rw [windows_of_le (by decide) (by rw [List.length_append]; omega), List.take_left' hFirst,
    List.drop_left' hFirst, windows_block hSecond]

/-- The bits of the full blocks and of the rest are those of the message. -/
theorem toUInt64_length (length : Nat) :
    (512 * (length / 64)).toUInt64 + (length % 64 * 8).toUInt64 = (length * 8).toUInt64 := by
  rw [toUInt64_add]
  congr 1
  omega

/-- The blocks behind the full blocks of the message. -/
theorem windows_paddedMessage (message : List UInt8) :
    windows 64 (paddedMessage message) = windows 64 message ++
      windows 64 (rest 64 message ++
        ([0x80] ++ List.replicate (paddingZeros message.length) 0 ++
          store64H (message.length * 8).toUInt64)) :=
  windows_append (by decide) message _

/-- The end of the hash adds the padding, in one block or in two. -/
theorem sha256Done_of (message : List UInt8) :
    sha256Done (.of message) = messageDigest message := by
  have hRest := length_rest 64 message
  have hBits := toUInt64_length message.length
  rw [← hRest] at hBits
  rw [messageDigest, chainingValue, windows_paddedMessage, List.foldl_append]
  unfold sha256Done
  dsimp only [Sha256State.of]
  rw [hBits]
  generalize hHeld : rest 64 message = held at *
  split
  · next hTwo =>
      rw [List.length_append, List.length_singleton] at hTwo
      have hZeros : paddingZeros message.length = (64 - (held ++ [0x80]).length) + 56 := by
        rw [List.length_append, List.length_singleton, paddingZeros]
        omega
      rw [hZeros, List.replicate_add]
      have hFirst : (held ++ [(0x80 : UInt8)] ++
          List.replicate (64 - (held ++ [0x80]).length) (0 : UInt8)).length = 64 := by
        simp only [List.length_append, List.length_replicate, List.length_singleton]
        omega
      have hSecond : (List.replicate 56 (0 : UInt8) ++
          store64H (message.length * 8).toUInt64).length = 64 := by
        rw [List.length_append, List.length_replicate, length_store64H]
      have hBlocks := windows_blocks hFirst hSecond
      simp only [List.append_assoc] at hBlocks ⊢
      rw [hBlocks]
      simp only [List.foldl_cons, List.foldl_nil, List.nil_append, List.length_nil, Nat.sub_zero,
        HashWords.bytes, chainingValue, List.append_assoc]
  · next hOne =>
      rw [List.length_append, List.length_singleton] at hOne
      have hZeros : paddingZeros message.length = 56 - (held ++ [0x80]).length := by
        rw [List.length_append, List.length_singleton, paddingZeros]
        omega
      rw [hZeros]
      have hOnly : (held ++ [(0x80 : UInt8)] ++
          List.replicate (56 - (held ++ [0x80]).length) 0 ++
          store64H (message.length * 8).toUInt64).length = 64 := by
        simp only [List.length_append, List.length_replicate, List.length_singleton,
          length_store64H]
        omega
      have hBlock := windows_block hOnly
      simp only [List.append_assoc] at hBlock ⊢
      rw [hBlock]
      simp only [List.foldl_cons, List.foldl_nil, HashWords.bytes, chainingValue,
        List.append_assoc]

/-- However a message is cut into pieces, its hash is that of the whole. -/
theorem sha256Done_pieces (pieces : List (List UInt8)) :
    sha256Done (pieces.foldl sha256Process sha256Init) = messageDigest pieces.flatten := by
  rw [sha256Init_eq, sha256Process_pieces, sha256Done_of]
  rfl

end SignImage
