import Gtexswifi.Library.Exponents
import Gtexswifi.SignImage.PrvEnc
import Mathlib.Tactic.NormNum.Prime
import Mathlib.Tactic.ReduceModChar

/-! Encryption with the private exponent and decryption with the public one:
which messages come back. -/
namespace SignImage

open Radix

/-- A number is the block of the message when it agrees with it in all bytes
but the first. -/
theorem payload_bigEndian {byteLen v : Nat} {data : List UInt8} (h : data.length + 11 ≤ byteLen) :
    payload (bigEndian byteLen v) = some data ↔
      v % Digit.base UInt8 ^ (byteLen - 1) = bigEndianValue (type1Block byteLen data) := by
  have hBlock : (bigEndian byteLen v).length = byteLen := length_bigEndian byteLen v
  have hTail := tail_bigEndian (byteLen - 1) v
  rw [Nat.sub_add_cancel (by omega)] at hTail
  have hLength : (type1Block byteLen data).tail.length = byteLen - 1 := by
    rw [List.length_tail, length_type1Block (by omega)]
  have hFirst : bigEndianValue (type1Block byteLen data) =
      bigEndianValue (type1Block byteLen data).tail := bigEndianValue_cons 0 _
  rw [payload_eq_some_iff_tail (hBlock.symm ▸ h), hBlock, hTail, hFirst, ← hLength]
  exact bigEndian_eq_iff

theorem base_pow_words (k : Nat) : Digit.base UInt8 ^ (4 * k) = limbBase ^ k := by
  rw [Nat.pow_mul, base_uint8_pow]
  rfl

/-- A number of as many limbs, read from its bytes. -/
theorem setParameter_bigEndian {v words : Nat} (h : v < limbBase ^ words)
    (hWords : words ≤ bigintMaxlen) :
    setParameterCharOpenssl (bigEndian (4 * words) v) (4 * words) =
      .ok (Numeral.toBig ⟨v, words, h⟩) := by
  rw [setParameterCharOpenssl_eq (length_bigEndian _ v) hWords]
  congr 2
  apply Numeral.ext
  · change bigEndianValue (bigEndian (4 * words) v) = v
    rw [bigEndianValue_bigEndian, base_pow_words, Nat.mod_eq_of_lt h]
  · rfl

/-- A modulus of two primes with exactly `32 * words` bits, exponents that
are inverse to each other, and a message that leaves room for the padding. -/
structure SignedMessage where
  words : Nat
  three_le_words : 3 ≤ words
  words_le : words ≤ Numeral.maxModulusLength
  p : Nat
  q : Nat
  prime_p : p.Prime
  prime_q : q.Prime
  distinct : p ≠ q
  two_pow_le : 2 ^ (32 * words - 1) ≤ p * q
  lt_two_pow : p * q < 2 ^ (32 * words)
  prvE : Nat
  prvE_pos : 0 < prvE
  prvE_lt : prvE < p * q
  pubD : Nat
  pubD_pos : 0 < pubD
  pubD_lt : pubD < 2 ^ 32
  inverse : pubD * prvE ≡ 1 [MOD Nat.lcm (p - 1) (q - 1)]
  message : List UInt8
  length_message : message.length + 11 ≤ 4 * words

namespace SignedMessage

def modN (i : SignedMessage) : Nat := i.p * i.q

/-- The bytes of the modulus, most significant first. -/
def modNBytes (i : SignedMessage) : List UInt8 := bigEndian (4 * i.words) i.modN

def prvEnc (i : SignedMessage) (dest : List UInt8) (stack : Nat → UInt8) :
    Except Fault (Bool × List UInt8) :=
  rsaPrvEnc (some (bigEndian (4 * i.words) i.prvE)) (some i.modNBytes) (32 * i.words : Nat)
    i.message i.message.length dest stack

def pubDec (i : SignedMessage) (signature dest : List UInt8) (stack : Nat → UInt8) :
    Except Fault (Int × List UInt8) :=
  rsaPubDec (some (bigEndian 4 i.pubD)) (some i.modNBytes) (32 * i.words : Nat) signature dest stack

/-- Whatever the output buffers and the stack held, a signature is opened to
the message. -/
def RoundTrip (i : SignedMessage) : Prop :=
  ∀ (dest : List UInt8) (stack : Nat → UInt8) (signature : List UInt8),
    dest.length = 4 * i.words → i.prvEnc dest stack = .ok (true, signature) →
      ∀ (out : List UInt8) (stack' : Nat → UInt8), i.message.length ≤ out.length →
        i.pubDec signature out stack' =
          .ok ((i.message.length : Int), i.message ++ out.drop i.message.length)

theorem lt_limbBase_pow (i : SignedMessage) : i.modN < limbBase ^ i.words := by
  rw [Numeral.limbBase_pow]
  exact i.lt_two_pow

def key (i : SignedMessage) : Modulus where
  value := i.modN
  length := i.words
  bounded := i.lt_limbBase_pow
  length_pos := Nat.lt_of_lt_of_le (by decide) i.three_le_words
  top_ne_zero := by
    have hWords := i.three_le_words
    rw [Numeral.limbBase_pow]
    exact (Nat.pow_le_pow_right (by decide) (by omega)).trans i.two_pow_le

/-- The private exponent in as many limbs as the modulus. -/
def exponent (i : SignedMessage) : Numeral where
  value := i.prvE
  length := i.words
  bounded := i.prvE_lt.trans i.lt_limbBase_pow

def blockBytes (i : SignedMessage) : List UInt8 := type1Block (4 * i.words) i.message

theorem length_blockBytes (i : SignedMessage) : i.blockBytes.length = 4 * i.words := by
  have hMessage := i.length_message
  exact length_type1Block (by omega)

/-- The padded message as a number. -/
def block (i : SignedMessage) : Numeral := .ofBytes i.blockBytes i.words i.length_blockBytes

/-- The smallest key has three limbs, since the padding takes eleven bytes. -/
theorem four_le_words (i : SignedMessage) : 12 ≤ 4 * i.words :=
  Nat.mul_le_mul_left 4 i.three_le_words

/-- The first byte of the block is zero. -/
theorem block_lt (i : SignedMessage) :
    i.block.value < Digit.base UInt8 ^ (4 * i.words - 1) := by
  have hLength := i.length_blockBytes
  have hFirst : i.block.value = bigEndianValue i.blockBytes.tail := bigEndianValue_cons 0 _
  have hValue := bigEndianValue_lt i.blockBytes.tail
  rwa [List.length_tail, hLength, ← hFirst] at hValue

/-- The second byte is in the top word. -/
theorem le_block (i : SignedMessage) : limbBase ^ (i.words - 1) ≤ i.block.value := by
  have hWords := i.four_le_words
  have hLength : i.blockBytes.tail.tail.length = 4 * i.words - 2 := by
    rw [List.length_tail, List.length_tail, length_blockBytes, Nat.sub_sub]
  have hSecond : i.block.value = bigEndianValue i.blockBytes.tail.tail +
      Digit.base UInt8 ^ i.blockBytes.tail.tail.length * (1 : UInt8).toNat := by
    rw [← bigEndianValue_cons]
    exact bigEndianValue_cons 0 _
  rw [← base_pow_words, hSecond, hLength]
  calc
    Digit.base UInt8 ^ (4 * (i.words - 1)) ≤ Digit.base UInt8 ^ (4 * i.words - 2) :=
      Nat.pow_le_pow_right (by decide) (by omega)
    _ = Digit.base UInt8 ^ (4 * i.words - 2) * (1 : UInt8).toNat := (Nat.mul_one _).symm
    _ ≤ bigEndianValue i.blockBytes.tail.tail +
        Digit.base UInt8 ^ (4 * i.words - 2) * (1 : UInt8).toNat := Nat.le_add_left _ _

/-- The block begins with a zero byte and is less than the modulus. -/
theorem block_below (i : SignedMessage) : i.block.Below i.key := by
  refine Or.inr ⟨rfl, i.block_lt.trans_le ?_⟩
  have hWords := i.four_le_words
  calc
    Digit.base UInt8 ^ (4 * i.words - 1) = 2 ^ (8 * (4 * i.words - 1)) := (Nat.pow_mul 2 8 _).symm
    _ ≤ 2 ^ (32 * i.words - 1) := Nat.pow_le_pow_right (by decide) (by omega)
    _ ≤ i.modN := i.two_pow_le

/-- The number that signing computes, unless it gets stuck. -/
def signed (i : SignedMessage) : Option Numeral :=
  Numeral.ladder i.key i.block i.exponent.value i.exponent.topBit i.block

theorem signed_spec {i : SignedMessage} {c : Numeral} (h : i.signed = some c) :
    c.Below i.key ∧ c.value = i.block.value ^ i.exponent.raised % i.modN :=
  Numeral.ladder_raised i.block_below h

/-- The code's encryption of stored numerals is that of the numerals. -/
theorem prvEncrypt_eq (i : SignedMessage) :
    prvEncrypt rsaInitialize i.block.toBig i.exponent.toBig i.key.toBig =
      inBounds (i.signed.map fun c => (1, c.toBig)) := by
  have hMax : i.words ≤ bigintMaxlen := i.words_le.trans (by decide)
  have hPos : 0 < i.words := i.key.length_pos
  have hCmp := Numeral.cmp_neg_iff.mpr i.block_below
  rw [prvEncrypt, Numeral.cmp_toBig (show i.block.length ≤ _ from hMax), ok_bind,
    if_neg (by omega), Numeral.rsaTrans_ladder i.words_le (Nat.le_refl i.words) hPos hMax]
  change inBounds (i.signed.map Numeral.toBig) >>= _ = _
  cases i.signed <;> rfl

/-- The limbs of the number are put over the buffer, and what is left of it
comes first. -/
theorem prvEnc_eq (i : SignedMessage) {dest : List UInt8} (hDest : dest.length = 4 * i.words)
    (stack : Nat → UInt8) :
    i.prvEnc dest stack = inBounds (i.signed.map fun c =>
      (true, (bytesOfLimbs c.limbs ++ dest.drop (4 * c.length)).reverse)) := by
  have hWords := i.four_le_words
  have hBound := i.words_le
  have hMax : i.words ≤ bigintMaxlen := hBound.trans (by decide)
  have hBytes : ((32 * i.words : Nat) : Int) / 8 = (4 * i.words : Nat) := by omega
  have hE : setUnlessNull (some (bigEndian (4 * i.words) i.prvE)) (4 * i.words) =
      .ok i.exponent.toBig := setParameter_bigEndian i.exponent.bounded hMax
  have hN : setUnlessNull (some i.modNBytes) (4 * i.words) = .ok i.key.toBig :=
    setParameter_bigEndian i.lt_limbBase_pow hMax
  have hAdd : paddingAddPKCS1Type1 ((List.range (4 * i.words)).map stack) (4 * i.words) i.message
      i.message.length = .ok (1, i.blockBytes) := by
    apply paddingAdd_eq _ i.length_message
    · rw [Numeral.maxModulusLength] at hBound
      omega
    · simp
  have hM : setParameterCharOpenssl i.blockBytes (4 * i.words) = .ok i.block.toBig :=
    setParameterCharOpenssl_eq i.length_blockBytes hMax
  rw [prvEnc, rsaPrvEnc]
  simp only [hBytes, Int.toNat_natCast]
  rw [if_neg (by omega), hE, ok_bind, hN, ok_bind, hAdd, ok_bind]
  dsimp only
  rw [if_neg (by decide), hM, ok_bind, prvEncrypt_eq]
  cases hSigned : i.signed with
  | none => rfl
  | some c =>
      have hLength : c.length ≤ i.words := (signed_spec hSigned).1.length_le
      have hCopied : (bytesOfLimbs c.limbs).length = 4 * c.length := by
        rw [length_bytesOfLimbs, Numeral.length_limbs]
      have hWrite : Memory.write dest 0 (bytesOfLimbs c.limbs) =
          some (bytesOfLimbs c.limbs ++ dest.drop (4 * c.length)) := by
        rw [Memory.write, if_pos (by omega), hCopied, Nat.zero_add]
        rfl
      have hInvert : invertChar (bytesOfLimbs c.limbs ++ dest.drop (4 * c.length)) (4 * i.words) =
          .ok (bytesOfLimbs c.limbs ++ dest.drop (4 * c.length)).reverse := by
        have hFull : (bytesOfLimbs c.limbs ++ dest.drop (4 * c.length)).length = 4 * i.words := by
          rw [List.length_append, hCopied, List.length_drop]
          omega
        rw [← hFull]
        exact invertChar_whole _
      rw [Option.map_some, inBounds, ok_bind, if_neg (show ¬(1 : Int) < 0 by decide),
        Numeral.iLength32_toBig, Numeral.limbs_toBig _ (hLength.trans hMax), ok_bind]
      change inBounds (Memory.write dest 0 (bytesOfLimbs c.limbs)) >>= _ = _
      rw [hWrite, inBounds, ok_bind, hInvert]
      rfl

/-- The call of `RSA_PubDec` for a signature. -/
def opening (i : SignedMessage) {signature : List UInt8} (h : signature.length = 4 * i.words) :
    PubDecInput where
  words := i.words
  words_le := i.words_le
  pubD := bigEndian 4 i.pubD
  length_pubD := length_bigEndian 4 i.pubD
  modN := i.modNBytes
  length_modN := length_bigEndian _ _
  signature := signature
  length_signature := h
  dest := signature
  length_dest := h

theorem modulus_opening (i : SignedMessage) {signature : List UInt8}
    (h : signature.length = 4 * i.words) : i.key.toNumeral = (i.opening h).modulus := by
  apply Numeral.ext
  · change i.modN = bigEndianValue (bigEndian (4 * i.words) i.modN)
    rw [bigEndianValue_bigEndian, base_pow_words, Nat.mod_eq_of_lt i.lt_limbBase_pow]
  · rfl

theorem exponent_opening (i : SignedMessage) {signature : List UInt8}
    (h : signature.length = 4 * i.words) : (i.opening h).exponent = i.pubD := by
  have hWord : i.pubD < Digit.base UInt8 ^ 4 := i.pubD_lt
  exact (bigEndianValue_bigEndian 4 i.pubD).trans (Nat.mod_eq_of_lt hWord)

/-- A number is opened to the message: it is smaller than the modulus, its
ladder does not get stuck, and the power is the block up to the first byte. -/
structure Opens (i : SignedMessage) (s : Numeral) : Prop where
  lt_modN : s.value < i.modN
  power : Numeral.power i.key s i.pubD ≠ none
  agrees : s.value ^ i.pubD % i.modN % Digit.base UInt8 ^ (4 * i.words - 1) = i.block.value

/-- The power is as long as the modulus, since the block type is in its top
word. -/
theorem opens_iff_opened (i : SignedMessage) {signature : List UInt8}
    (h : signature.length = 4 * i.words) :
    (∃ z, (i.opening h).opened i.key = some z ∧ z.length = i.words ∧
        payload (bigEndian (4 * i.words) z.value) = some i.message) ↔
      i.Opens (i.opening h).cipher := by
  have hBelow : (i.opening h).cipher.value < i.modN → (i.opening h).cipher.Below i.key :=
    fun hLess => Or.inr ⟨rfl, hLess⟩
  constructor
  · rintro ⟨z, hOpened, hFull, hPayload⟩
    rw [payload_bigEndian i.length_message] at hPayload
    unfold PubDecInput.opened at hOpened
    split_ifs at hOpened with hLess
    · rw [exponent_opening] at hOpened
      obtain ⟨-, hValue⟩ := Numeral.power_spec i.pubD_pos.ne' (hBelow hLess) hOpened
      refine ⟨hLess, by rw [hOpened]; exact Option.some_ne_none z, ?_⟩
      rw [hValue] at hPayload
      exact hPayload
    · obtain rfl := Option.some.inj hOpened
      have hWords := i.three_le_words
      have hOne : (Numeral.normal 0).length = 1 := rfl
      omega
  · rintro ⟨hLess, hPower, hAgrees⟩
    obtain ⟨z, hz⟩ := Option.ne_none_iff_exists'.mp hPower
    obtain ⟨hzBelow, hValue⟩ := Numeral.power_spec i.pubD_pos.ne' (hBelow hLess) hz
    have hAgrees' : z.value % Digit.base UInt8 ^ (4 * i.words - 1) = i.block.value := by
      rw [hValue]
      exact hAgrees
    refine ⟨z, ?_, ?_, (payload_bigEndian i.length_message).mpr hAgrees'⟩
    · rw [PubDecInput.opened, if_pos (show _ < i.key.value from hLess), exponent_opening, hz]
    · have hHigh : limbBase ^ (i.words - 1) ≤ z.value :=
        i.le_block.trans (hAgrees' ▸ Nat.mod_le _ _)
      have hLength : i.words - 1 < z.length :=
        (Nat.pow_lt_pow_iff_right (by decide)).mp (hHigh.trans_lt z.bounded)
      have hMax : z.length ≤ i.words := hzBelow.length_le
      omega

/-- The call returns the message exactly if the numeral opens to the block. -/
theorem pubDec_iff_opens (i : SignedMessage) {signature : List UInt8}
    (h : signature.length = 4 * i.words) :
    (∀ (out : List UInt8) (stack : Nat → UInt8), i.message.length ≤ out.length →
        i.pubDec signature out stack =
          .ok ((i.message.length : Int), i.message ++ out.drop i.message.length)) ↔
      i.Opens (i.opening h).cipher :=
  ((i.opening h).opens_iff (i.modulus_opening h) i.key.length_pos i.message).trans
    (i.opens_iff_opened h)

/-- The bytes of the output buffer: those of the limbs, and in front of them
what it held. -/
def signature (c : Numeral) (dest : List UInt8) : List UInt8 :=
  (bytesOfLimbs c.limbs ++ dest.drop (4 * c.length)).reverse

theorem length_signature {i : SignedMessage} {c : Numeral} (h : c.length ≤ i.words)
    {dest : List UInt8} (hDest : dest.length = 4 * i.words) :
    (signature c dest).length = 4 * i.words := by
  rw [signature, List.length_reverse, List.length_append, length_bytesOfLimbs,
    Numeral.length_limbs, List.length_drop]
  omega

/-- The signature has the limbs of the result, and above them what the
destination held. -/
theorem bigEndianValue_signature (c : Numeral) (dest : List UInt8) :
    bigEndianValue (signature c dest) =
      c.value + limbBase ^ c.length * value (dest.drop (4 * c.length)) := by
  rw [bigEndianValue, signature, List.reverse_reverse, value_append, value_bytesOfLimbs,
    Numeral.value_limbs, length_bytesOfLimbs, Numeral.length_limbs, base_pow_words]

/-- The number of the output buffer. -/
def written (i : SignedMessage) {c : Numeral} (h : c.length ≤ i.words) {dest : List UInt8}
    (hDest : dest.length = 4 * i.words) : Numeral :=
  .ofBytes (signature c dest) i.words (length_signature h hDest)

/-- The round trip holds exactly if every signature that can be written
opens, whatever the destination held. -/
theorem roundTrip_iff_written (i : SignedMessage) :
    i.RoundTrip ↔ ∀ (c : Numeral) (hSigned : i.signed = some c) (dest : List UInt8)
      (hDest : dest.length = 4 * i.words),
        i.Opens (i.written (signed_spec hSigned).1.length_le hDest) := by
  constructor
  · intro hRound c hSigned dest hDest
    have hLength := (signed_spec hSigned).1.length_le
    apply (i.pubDec_iff_opens (length_signature hLength hDest)).mp
    apply hRound dest (fun _ => 0) _ hDest
    rw [prvEnc_eq i hDest, hSigned]
    rfl
  · intro hOpens dest stack sig hDest hRun
    rw [prvEnc_eq i hDest] at hRun
    cases hSigned : i.signed with
    | none =>
        rw [hSigned] at hRun
        cases hRun
    | some c =>
        have hLength := (signed_spec hSigned).1.length_le
        rw [hSigned] at hRun
        obtain rfl : signature c dest = sig := congrArg Prod.snd (Except.ok.inj hRun)
        exact (i.pubDec_iff_opens (length_signature hLength hDest)).mpr (hOpens c hSigned dest hDest)

/-- A number that fills its words leaves nothing of the buffer. -/
theorem written_full (i : SignedMessage) {c : Numeral} (hFull : c.length = i.words)
    {dest : List UInt8} (hDest : dest.length = 4 * i.words) :
    i.written hFull.le hDest = c := by
  apply Numeral.ext
  · change bigEndianValue (signature c dest) = c.value
    rw [bigEndianValue_signature, List.drop_of_length_le (by omega), value_nil, Nat.mul_zero,
      Nat.add_zero]
  · exact hFull.symm

theorem inverse_modN (i : SignedMessage) : Exponents.Inverse i.modN i.pubD i.prvE :=
  .of_primes i.prime_p i.prime_q i.distinct i.pubD_pos i.prvE_pos i.inverse

/-- The first byte of the opened number. -/
def firstByte (i : SignedMessage) (s : Numeral) : Nat :=
  s.value ^ i.pubD % i.modN / Digit.base UInt8 ^ (4 * i.words - 1)

theorem firstByte_lt (i : SignedMessage) (s : Numeral) : i.firstByte s < 256 := by
  have hWords := i.four_le_words
  rw [firstByte, Nat.div_lt_iff_lt_mul (Nat.pow_pos (by decide))]
  calc
    s.value ^ i.pubD % i.modN < i.modN := Nat.mod_lt _ i.key.value_pos
    _ < Digit.base UInt8 ^ (4 * i.words) := by
      rw [base_pow_words]
      exact i.lt_limbBase_pow
    _ = Digit.base UInt8 ^ (4 * i.words - 1 + 1) := by rw [Nat.sub_add_cancel (by omega)]
    _ = 256 * Digit.base UInt8 ^ (4 * i.words - 1) := Nat.pow_succ'

/-- Two numbers that are opened to the message are told apart by the first
byte. -/
theorem Opens.eq_of_firstByte {i : SignedMessage} {s t : Numeral} (hs : i.Opens s)
    (ht : i.Opens t) (hFirst : i.firstByte s = i.firstByte t) : s.value = t.value := by
  have hPower : s.value ^ i.pubD ≡ t.value ^ i.pubD [MOD i.modN] := by
    unfold firstByte at hFirst
    have hBytes := hs.agrees.trans ht.agrees.symm
    rw [Nat.ModEq, ← Nat.div_add_mod (s.value ^ i.pubD % i.modN), hFirst, hBytes, Nat.div_add_mod]
  exact Nat.ModEq.eq_of_lt_of_lt (i.inverse_modN.pow_injective hPower) hs.lt_modN ht.lt_modN

/-- A buffer that holds a small number in front of the limbs that are
copied. -/
def bufferHolding (i : SignedMessage) (c : Numeral) (t : Nat) : List UInt8 :=
  List.replicate (4 * c.length) 0 ++ encode (4 * (i.words - c.length)) t

theorem length_bufferHolding {i : SignedMessage} {c : Numeral} (h : c.length ≤ i.words) (t : Nat) :
    (i.bufferHolding c t).length = 4 * i.words := by
  rw [bufferHolding, List.length_append, List.length_replicate, length_encode]
  omega

/-- What is written over this destination has the chosen limb above the
result. -/
theorem value_written_bufferHolding {i : SignedMessage} {c : Numeral} (h : c.length ≤ i.words)
    (hShort : c.length ≠ i.words) {t : Nat} (ht : t < limbBase) :
    (i.written h (length_bufferHolding h t)).value = c.value + limbBase ^ c.length * t := by
  have hRoom : t < Digit.base UInt8 ^ (4 * (i.words - c.length)) := by
    rw [base_pow_words]
    exact ht.trans_le (Nat.le_self_pow (by omega) _)
  change bigEndianValue (signature c (i.bufferHolding c t)) = _
  rw [bigEndianValue_signature, bufferHolding,
    List.drop_left' (List.length_replicate (n := 4 * c.length)), value_encode_of_lt hRoom]

/-- The first byte of the opened number tells at most 256 numbers apart, and
a missing word can hold more: some contents of the buffer are not opened to
the message. -/
theorem full_of_opens (i : SignedMessage) {c : Numeral} (h : c.length ≤ i.words)
    (hOpens : ∀ (dest : List UInt8) (hDest : dest.length = 4 * i.words),
      i.Opens (i.written h hDest)) : c.length = i.words := by
  by_contra hShort
  have hInjective : Function.Injective fun t : Fin 257 =>
      (⟨i.firstByte (i.written h (length_bufferHolding h t)), i.firstByte_lt _⟩ : Fin 256) := by
    intro s t hFirst
    have hLimb (u : Fin 257) : u.val < limbBase := u.isLt.trans (by decide)
    have hSame := (hOpens _ (length_bufferHolding h s)).eq_of_firstByte
      (hOpens _ (length_bufferHolding h t)) (Fin.mk.inj hFirst)
    rw [value_written_bufferHolding h hShort (hLimb s),
      value_written_bufferHolding h hShort (hLimb t)] at hSame
    exact Fin.ext (Nat.eq_of_mul_eq_mul_left (Nat.pow_pos limbBase_pos) (Nat.add_left_cancel hSame))
  have hCard := Fintype.card_le_of_injective _ hInjective
  rw [Fintype.card_fin, Fintype.card_fin] at hCard
  omega

/-- The power of the signature, when it was raised to the private exponent
or to that exponent with a bit added. -/
theorem pow_pubD_signed {i : SignedMessage} {c : Numeral} (hSigned : i.signed = some c) :
    c.value ^ i.pubD ≡ (if 2 ^ (32 * (i.words - 1) - 1) ≤ i.prvE then i.block.value
      else i.block.value ^ (2 ^ (32 * (i.words - 1) - 1) * i.pubD + 1)) [MOD i.modN] := by
  have hSignature : c.value ≡ i.block.value ^ i.exponent.raised [MOD i.modN] := by
    rw [(signed_spec hSigned).2]
    exact Nat.mod_modEq _ _
  have hRaised : i.exponent.raised = if 2 ^ (32 * (i.words - 1) - 1) ≤ i.prvE then i.prvE
      else 2 ^ (32 * (i.words - 1) - 1) + i.prvE := i.exponent.raised_eq
  have hInverse := i.inverse_modN.pow_pow i.block.value
  refine (hSignature.pow i.pubD).trans ?_
  rw [hRaised]
  split
  · exact hInverse
  · generalize 2 ^ (32 * (i.words - 1) - 1) = bit
    calc
      (i.block.value ^ (bit + i.prvE)) ^ i.pubD =
          i.block.value ^ (bit * i.pubD) * (i.block.value ^ i.prvE) ^ i.pubD := by ring
      _ ≡ i.block.value ^ (bit * i.pubD) * i.block.value [MOD i.modN] := hInverse.mul_left _
      _ = i.block.value ^ (bit * i.pubD + 1) := (pow_succ _ _).symm

/-- Apart from its first byte, the opened block is the one that was signed
exactly if the private exponent is raised to as it is, or if the bit that
`RsaTrans` adds to it makes no difference to the block. -/
theorem agrees_iff {i : SignedMessage} {c : Numeral} (hSigned : i.signed = some c) :
    c.value ^ i.pubD % i.modN % Digit.base UInt8 ^ (4 * i.words - 1) = i.block.value ↔
      2 ^ (32 * (i.words - 1) - 1) ≤ i.prvE ∨
        i.block.value ^ (2 ^ (32 * (i.words - 1) - 1) * i.pubD + 1) % i.modN %
          Digit.base UInt8 ^ (4 * i.words - 1) = i.block.value := by
  have hPower := pow_pubD_signed hSigned
  unfold Nat.ModEq at hPower
  rw [hPower]
  split
  · next hSet =>
      rw [Nat.mod_eq_of_lt (show i.block.value < i.modN from i.block_below.value_lt),
        Nat.mod_eq_of_lt i.block_lt]
      exact ⟨fun _ => Or.inl hSet, fun _ => rfl⟩
  · next hClear => exact ⟨Or.inr, fun h => h.resolve_left hClear⟩

/-- Every message comes back exactly when, unless signing itself gets stuck,
the signature fills the words of the modulus, opening it does not get stuck,
and the private exponent has a bit from `32 * words - 33` on, without which
the ladder raises to another exponent. -/
theorem roundTrip_iff (i : SignedMessage) :
    i.RoundTrip ↔ ∀ c, i.signed = some c →
      c.length = i.words ∧ Numeral.power i.key c i.pubD ≠ none ∧
        (2 ^ (32 * i.words - 33) ≤ i.prvE ∨
          i.block.value ^ (2 ^ (32 * i.words - 33) * i.pubD + 1) % i.modN %
            2 ^ (32 * i.words - 8) = i.block.value) := by
  have hWords := i.four_le_words
  have hBit : 32 * i.words - 33 = 32 * (i.words - 1) - 1 := by omega
  have hBytes : 2 ^ (32 * i.words - 8) = Digit.base UInt8 ^ (4 * i.words - 1) := by
    rw [show 32 * i.words - 8 = 8 * (4 * i.words - 1) by omega, Nat.pow_mul]
    rfl
  rw [roundTrip_iff_written, hBit, hBytes]
  constructor
  · intro hOpens c hSigned
    have hFull := i.full_of_opens (signed_spec hSigned).1.length_le (hOpens c hSigned)
    have hOpen := hOpens c hSigned (List.replicate (4 * i.words) 0) List.length_replicate
    rw [written_full i hFull] at hOpen
    exact ⟨hFull, hOpen.power, (agrees_iff hSigned).mp hOpen.agrees⟩
  · intro h c hSigned dest hDest
    obtain ⟨hFull, hPower, hAgrees⟩ := h c hSigned
    rw [written_full i hFull]
    exact ⟨(signed_spec hSigned).1.value_lt, hPower, (agrees_iff hSigned).mpr hAgrees⟩

/-- A key of 96 bits with exponent 3, and a message whose signature has two
words. -/
def shortSignature : SignedMessage where
  words := 3
  three_le_words := Nat.le_refl 3
  words_le := by decide
  p := 5879
  q := 8112778807373564902096451
  prime_p := by norm_num
  prime_q := by
    apply Exponents.prime_of_factors (2 : ZMod _)
      [2, 5, 5, 29, 41, 1217, 1693, 29819, 46829, 47431]
    · norm_num
    · norm_num
    · norm_num
      reduce_mod_char
    · norm_num
      reduce_mod_char
      decide
  distinct := by decide
  two_pow_le := by norm_num
  lt_two_pow := by norm_num
  prvE := 31791275886494542996348622067
  prvE_pos := by decide
  prvE_lt := by norm_num
  pubD := 3
  pubD_pos := by decide
  pubD_lt := by decide
  inverse := by decide +kernel
  message := [0x41]
  length_message := by decide

/-- The bytes that the output buffer held stay in front of the signature. -/
theorem shortSignature_lost :
    shortSignature.prvEnc (List.replicate 12 0xff) (fun _ => 0) =
        .ok (true, List.replicate 4 0xff ++ bigEndian 8 0x2f54999fe) ∧
      shortSignature.pubDec (List.replicate 4 0xff ++ bigEndian 8 0x2f54999fe)
          (List.replicate 12 0) (fun _ => 0) = .ok (-1, List.replicate 12 0) ∧
      ¬∀ i : SignedMessage, i.RoundTrip := by
  have hSigned : shortSignature.prvEnc (List.replicate 12 0xff) (fun _ => 0) =
      .ok (true, List.replicate 4 0xff ++ bigEndian 8 0x2f54999fe) := by
    apply (shortSignature.prvEnc_eq (by decide) _).trans
    decide +kernel
  have hOpened : shortSignature.pubDec (List.replicate 4 0xff ++ bigEndian 8 0x2f54999fe)
      (List.replicate 12 0) (fun _ => 0) = .ok (-1, List.replicate 12 0) := by
    have hLength : (List.replicate 4 0xff ++ bigEndian 8 0x2f54999fe).length =
        4 * shortSignature.words := by decide
    apply ((shortSignature.opening hLength).rsaPubDec_rsaM (Nat.succ_pos 2) _ _).trans
    rw [(shortSignature.opening hLength).rsaM_eq (shortSignature.modulus_opening hLength)]
    decide +kernel +revert
  refine ⟨hSigned, hOpened, fun hRound => ?_⟩
  have hBack := hRound shortSignature _ _ _ List.length_replicate hSigned (List.replicate 12 0)
    (fun _ => 0) (by decide)
  rw [hOpened] at hBack
  exact absurd hBack (by decide)

end SignedMessage

end SignImage
