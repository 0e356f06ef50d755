import Gtexswifi.SignImage.Opening

/-! `RSA_PubDec` copies as many limbs as `RSA_M` has over an array that it
has not cleared. The block is the opened number exactly when these limbs
fill the array. -/
namespace SignImage

open Radix

/-- The number in the limbs that the length counts. -/
def SBigInt.number (x : SBigInt) : Nat := value (x.ulValue.take x.iLength32)

namespace PubDecInput

/-- Whatever the stack held, the block is the big-endian notation of the
opened number, and return value and data are the same. -/
def InputsOnly (i : PubDecInput) : Prop :=
  ∃ rsaM result, i.rsaM = .ok rsaM ∧ ∀ stack,
    textBlock i.byteLen stack rsaM = .ok (bigEndian i.byteLen rsaM.number) ∧
      i.run stack = .ok result

/-- Without a limb to open, `RSA_M` keeps the one limb it was initialised
with. -/
theorem rsaM_words_zero {i : PubDecInput} (hWords : i.words = 0) : i.rsaM = .ok rsaInitialize := by
  have hCmp : i.cipher.cmp i.modulus = 0 := by
    have hValue (x : Numeral) (h : x.length = i.words) : x.value = 0 := by
      have hBounded := x.bounded
      rw [h, hWords, Nat.pow_zero] at hBounded
      exact Nat.lt_one_iff.mp hBounded
    have hSame : i.cipher.length = i.modulus.length := rfl
    simp [Numeral.cmp, hSame, hValue i.cipher rfl, hValue i.modulus rfl]
  have hMax : i.words ≤ bigintMaxlen := i.words_le.trans (by decide)
  rw [rsaM, decrypted, setUnlessNull, setUnlessNull, byteLen,
    setParameterCharOpenssl_eq i.length_pubD (by decide),
    setParameterCharOpenssl_eq i.length_modN hMax,
    setParameterCharOpenssl_eq i.length_signature hMax, ok_bind, ok_bind, ok_bind]
  change pubDecrypt rsaInitialize i.cipher.toBig _ i.modulus.toBig >>= _ = _
  rw [pubDecrypt, Numeral.cmp_toBig (show i.cipher.length ≤ _ from hMax), hCmp]
  rfl

/-- A full set of limbs leaves nothing of the stack in the block. -/
theorem textBlock_full {rsaM : SBigInt} {words : Nat} (hWords : words ≤ bigintMaxlen)
    (hFull : rsaM.iLength32 = words) (stack : Nat → UInt8) :
    textBlock (4 * words) stack rsaM = .ok (bigEndian (4 * words) rsaM.number) := by
  have hLength : (bytesOfLimbs (rsaM.ulValue.take words)).length = 4 * words := by
    rw [length_bytesOfLimbs, List.length_take, rsaM.size, Nat.min_eq_left hWords]
  rw [textBlock_eq, hFull, if_pos ⟨hWords, Nat.le_refl _⟩, bigEndian, SBigInt.number, hFull,
    List.drop_of_length_le (by simp), List.append_nil]
  congr 2
  exact eq_encode hLength (value_bytesOfLimbs _)

/-- Two blocks for different stacks are the same only when no byte of the
stack is left. -/
theorem full_of_textBlock_eq {rsaM : SBigInt} {byteLenN : Nat} {block : List UInt8}
    (h : ∀ stack, textBlock byteLenN stack rsaM = .ok block) :
    4 * rsaM.iLength32 = byteLenN := by
  have hZeros := h fun _ => 0
  have hOnes := h fun _ => 1
  rw [textBlock_eq] at hZeros hOnes
  split_ifs at hZeros hOnes with hFits
  have hSame := (Except.ok.inj hZeros).trans (Except.ok.inj hOnes).symm
  rw [List.reverse_inj, List.append_cancel_left_eq, List.map_const', List.map_const',
    List.drop_replicate, List.drop_replicate, List.replicate_inj] at hSame
  have hNone : (List.range byteLenN).length - 4 * rsaM.iLength32 = 0 := by
    simpa using hSame.2
  rw [List.length_range] at hNone
  omega

/-- The call depends on its inputs only exactly if the opened number has as
many limbs as the key. -/
theorem inputsOnly_iff_full (i : PubDecInput) :
    i.InputsOnly ↔ ∃ rsaM, i.rsaM = .ok rsaM ∧ rsaM.iLength32 = i.words := by
  constructor
  · rintro ⟨rsaM, result, hM, hStack⟩
    refine ⟨rsaM, hM, ?_⟩
    have hFull := full_of_textBlock_eq fun stack => (hStack stack).1
    rw [byteLen] at hFull
    omega
  · rintro ⟨rsaM, hM, hFull⟩
    have hWords : 0 < i.words := by
      apply Nat.pos_of_ne_zero
      intro hNone
      rw [rsaM_words_zero hNone] at hM
      obtain rfl := Except.ok.inj hM
      rw [hNone] at hFull
      cases hFull
    have hBlock := textBlock_full (i.words_le.trans (by decide)) hFull
    obtain ⟨result, hRun⟩ :=
      (i.run_defined_iff_rsaM hWords fun _ => 0).mpr ⟨rsaM, hM, hFull.le⟩
    refine ⟨rsaM, result, hM, fun stack => ⟨hBlock stack, ?_⟩⟩
    rw [← hRun, i.run_eq hWords, i.run_eq hWords, hM, ok_bind, ok_bind, byteLen, hBlock stack,
      hBlock fun _ => 0]

/-- The block is a matter of the inputs alone exactly when the opened number
has as many limbs as the modulus. Under a modulus with a non-zero top word
this number is the power that the ladder ends with, or zero for a signature
that is not smaller. -/
theorem rsaPubDec_inputsOnly_iff (i : PubDecInput) :
    (i.InputsOnly ↔ ∃ rsaM, i.rsaM = .ok rsaM ∧ rsaM.iLength32 = i.words) ∧
      ∀ n : Modulus, n.toNumeral = i.modulus →
        (i.InputsOnly ↔ ∃ m, i.opened n = some m ∧ m.length = i.words) := by
  refine ⟨i.inputsOnly_iff_full, fun n hn => ?_⟩
  rw [i.inputsOnly_iff_full, i.rsaM_eq hn]
  cases hOpened : i.opened n with
  | none => simp [inBounds]
  | some m => simp [inBounds]

theorem number_toBig {m : Numeral} (h : m.length ≤ bigintMaxlen) :
    m.toBig.number = m.value := by
  rw [SBigInt.number, Numeral.iLength32_toBig, Numeral.toBig, take_encode _ h]
  exact value_encode_of_lt m.bounded

/-- A stack of zeros is no block type. -/
theorem payload_zeros (bytes : List UInt8) (k : Nat) :
    payload (bytes ++ List.replicate (k + 2) 0).reverse = none := by
  rw [List.reverse_append, List.reverse_replicate]
  rfl

/-- Over a stack of zeros the block type is read from the opened number, so
that no word of it is missing. -/
theorem full_of_payload {words : Nat} {rsaM : SBigInt} {text data : List UInt8}
    (hText : textBlock (4 * words) (fun _ => 0) rsaM = .ok text)
    (hPayload : payload text = some data) : rsaM.iLength32 = words := by
  rw [textBlock_eq] at hText
  split_ifs at hText with hFits
  obtain rfl := Except.ok.inj hText
  by_contra hShort
  have hZeros : ((List.range (4 * words)).map fun _ => (0 : UInt8)).drop (4 * rsaM.iLength32) =
      List.replicate (4 * (words - rsaM.iLength32) - 2 + 2) 0 := by
    rw [List.map_const', List.drop_replicate, List.length_range]
    congr 1
    omega
  rw [hZeros, payload_zeros] at hPayload
  cases hPayload

/-- What was stored in a buffer of its own length is the data of the block. -/
theorem payload_of_stored {text data : List UInt8} {dest : List UInt8}
    (hDest : dest.length = data.length)
    (h : (match payload text with
      | none => .ok (-1, dest)
      | some stored => do
          return ((stored.length : Int), ← inBounds (Memory.write dest 0 stored))) =
        (.ok ((data.length : Int), data ++ dest.drop data.length) : Except Fault _)) :
    payload text = some data := by
  cases hPayload : payload text with
  | none =>
      rw [hPayload] at h
      have hLength := congrArg Prod.fst (Except.ok.inj h)
      dsimp only at hLength
      omega
  | some stored =>
      rw [hPayload] at h
      obtain ⟨written, hWrite, hResult⟩ := bind_eq_ok.mp h
      obtain ⟨hLength, hWritten⟩ := Prod.mk.inj (Except.ok.inj hResult)
      have hSame : stored.length = data.length := Nat.cast_injective hLength
      rw [Memory.write, if_pos (by omega)] at hWrite
      have hStored : stored ++ dest.drop (0 + stored.length) = written := Except.ok.inj hWrite
      rw [← hStored] at hWritten
      exact congrArg some (List.append_inj_left hWritten hSame)

/-- The data comes out for every stack exactly when the opened number fills
its words and is a block with that data. -/
theorem opens_iff (i : PubDecInput) {n : Modulus} (hn : n.toNumeral = i.modulus)
    (hWords : 0 < i.words) (data : List UInt8) :
    (∀ (dest : List UInt8) (stack : Nat → UInt8), data.length ≤ dest.length →
        rsaPubDec (some i.pubD) (some i.modN) (32 * i.words : Nat) i.signature dest stack =
          .ok ((data.length : Int), data ++ dest.drop data.length)) ↔
      ∃ z, i.opened n = some z ∧ z.length = i.words ∧
        payload (bigEndian i.byteLen z.value) = some data := by
  have hMax : i.words ≤ bigintMaxlen := i.words_le.trans (by decide)
  constructor
  · intro hOpens
    have hZeros := hOpens (List.replicate data.length 0) (fun _ => 0) (by simp)
    rw [i.rsaPubDec_rsaM hWords, i.rsaM_eq hn] at hZeros
    cases hOpened : i.opened n with
    | none =>
        rw [hOpened] at hZeros
        cases hZeros
    | some z =>
        refine ⟨z, rfl, ?_⟩
        rw [hOpened, Option.map_some, inBounds, ok_bind] at hZeros
        obtain ⟨text, hText, hResult⟩ := bind_eq_ok.mp hZeros
        have hPayload := payload_of_stored (by simp) hResult
        have hFull := full_of_payload hText hPayload
        have hBlock := ok_unique hText (textBlock_full hMax hFull fun _ => 0)
        rw [hBlock, number_toBig (hFull.trans_le hMax)] at hPayload
        exact ⟨hFull, hPayload⟩
  · rintro ⟨z, hOpened, hFull, hPayload⟩ dest stack hDest
    have hWrite : Memory.write dest 0 data = some (data ++ dest.drop data.length) := by
      rw [Memory.write, if_pos (by omega)]
      simp
    rw [i.rsaPubDec_rsaM hWords, i.rsaM_eq hn, hOpened, Option.map_some, inBounds, ok_bind,
      byteLen, textBlock_full hMax hFull, ok_bind, number_toBig (hFull.trans_le hMax)]
    rw [byteLen] at hPayload
    simp only [hPayload, hWrite, inBounds, ok_bind, pure_eq_ok]

/-- With exponent one, a signature smaller than the modulus is its own
block. -/
theorem run_exponent_one (i : PubDecInput) {n : Modulus} (hn : n.toNumeral = i.modulus)
    (hExponent : i.exponent = 1) (hLess : i.cipher.value < n.value) (stack : Nat → UInt8) :
    i.run stack = match payload i.signature with
      | none => .ok (-1, i.dest)
      | some data => do return ((data.length : Int), ← inBounds (Memory.write i.dest 0 data)) := by
  have hWords : 0 < i.words := by
    have hPos := n.length_pos
    rwa [show n.length = i.words from congrArg Numeral.length hn] at hPos
  have hMax : i.words ≤ bigintMaxlen := i.words_le.trans (by decide)
  have hM : i.rsaM = .ok i.cipher.toBig := by
    rw [i.rsaM_eq hn, opened, if_pos hLess, hExponent, Numeral.power_one]
    rfl
  have hBlock : textBlock i.byteLen stack i.cipher.toBig = .ok i.signature := by
    rw [byteLen, textBlock_full hMax rfl, number_toBig hMax, ← i.length_signature]
    exact congrArg Except.ok bigEndian_value
  have hRun := i.run_eq hWords stack
  rw [hM, ok_bind, hBlock, ok_bind] at hRun
  exact hRun

/-- A signature that is not smaller than the modulus, so that `RSA_M` is
left with one limb. -/
def oversizedSignature : PubDecInput where
  words := 4
  words_le := by decide
  pubD := [0, 0, 0, 1]
  length_pubD := rfl
  modN := 0x80 :: List.replicate 15 0
  length_modN := rfl
  signature := List.replicate 16 0xff
  length_signature := rfl
  dest := List.replicate 16 0
  length_dest := rfl

/-- A stack that holds block type, padding and end mark of a block. -/
def paddedStack (k : Nat) : UInt8 :=
  if k = 14 then 1 else if 6 ≤ k ∧ k ≤ 13 then 0xff else if k = 4 then 7 else 0

/-- One signature, refused over a stack of zeros and accepted over another. -/
theorem oversizedSignature_dependsOnStack :
    oversizedSignature.run (fun _ => 0) = .ok (-1, List.replicate 16 0) ∧
      oversizedSignature.run paddedStack = .ok (5, 7 :: List.replicate 15 0) ∧
      ¬∀ i : PubDecInput, i.InputsOnly := by
  have hZeros : oversizedSignature.run (fun _ => 0) = .ok (-1, List.replicate 16 0) := by
    decide +kernel
  have hPadded : oversizedSignature.run paddedStack = .ok (5, 7 :: List.replicate 15 0) := by
    decide +kernel
  refine ⟨hZeros, hPadded, fun hInputs => ?_⟩
  obtain ⟨_, result, _, hStack⟩ := hInputs oversizedSignature
  have hSame := (hStack fun _ => 0).2.trans (hStack paddedStack).2.symm
  rw [hZeros, hPadded] at hSame
  exact absurd hSame (by decide)

end PubDecInput

/-- A signature whose power has a non-zero top word is opened by its inputs
alone, unless the ladder gets stuck. -/
theorem KeyedInput.inputsOnly_of_top {i : KeyedInput} (hLess : i.cipher.value < i.key.value)
    (hLadder : Numeral.power i.key i.cipher i.exponent ≠ none)
    (hTop : limbBase ^ (i.words - 1) ≤ i.cipher.value ^ i.exponent % i.key.value) :
    i.InputsOnly := by
  obtain ⟨m, hPower⟩ := Option.ne_none_iff_exists'.mp hLadder
  have hBelow : i.cipher.Below i.key := Or.inr ⟨rfl, hLess⟩
  obtain ⟨hmBelow, hmValue⟩ := Numeral.power_spec i.exponent_ne_zero hBelow hPower
  have hLength : m.length ≤ i.words := hmBelow.length_le
  have hHigh : limbBase ^ (i.words - 1) ≤ m.value := hmValue ▸ hTop
  have hFull : i.words - 1 < m.length :=
    (Nat.pow_lt_pow_iff_right (by decide)).mp (hHigh.trans_lt m.bounded)
  have hM : i.rsaM = .ok m.toBig := by
    rw [i.rsaM_eq (n := i.key) rfl, PubDecInput.opened, if_pos hLess, hPower]
    rfl
  have hWords : m.toBig.iLength32 = i.words := by
    have hPos := i.words_pos
    rw [Numeral.iLength32_toBig]
    omega
  exact i.inputsOnly_iff_full.mpr ⟨m.toBig, hM, hWords⟩

end SignImage
