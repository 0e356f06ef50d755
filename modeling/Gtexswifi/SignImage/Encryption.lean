import Gtexswifi.SignImage.Pkcs1Type2
import Gtexswifi.SignImage.RoundTrip

/-! Encryption with the public exponent and decryption with the private one.
Keys and messages are those of signing; the padding of an encrypted message
is no secret. -/
namespace SignImage

open Radix

/-- The return value with `RSA_C` afterwards. -/
def pubEncrypt (rsaC rsaM rsaD rsaN : SBigInt) : Except Fault (Int × SBigInt) := do
  if 0 ≤ (← cmp rsaM rsaN) then return (-1, rsaC)
  else return (1, ← rsaTrans rsaM rsaD rsaN)

/-- The return value with `RSA_M` afterwards. -/
def prvDecrypt (rsaM rsaC rsaE rsaN : SBigInt) : Except Fault (Int × SBigInt) := do
  if 0 ≤ (← cmp rsaC rsaN) then return (-1, rsaM)
  else return (1, ← rsaTrans rsaC rsaE rsaN)

/-- The return value with the contents of `to` afterwards. The array
`textpadded[byteLenN]` starts with what the stack held; one of no positive
size is undefined. -/
def rsaPubEnc (pubD modN : Option (List UInt8)) (bitLenN : Int) (data : List UInt8) (flen : Int)
    (dest : List UInt8) (stack : Nat → UInt8) : Except Fault (Bool × List UInt8) := do
  if bitLenN / 8 ≤ 0 then .error .outOfBounds
  else
    let byteLenN := (bitLenN / 8).toNat
    let rsaD ← setUnlessNull pubD 4
    let rsaN ← setUnlessNull modN byteLenN
    let (added, textpadded) ←
      paddingAddPKCS1Type2 ((List.range byteLenN).map stack) byteLenN data flen
    if added ≤ 0 then return (false, dest)
    else
      let rsaM ← setParameterCharOpenssl textpadded byteLenN
      let (encrypted, rsaC) ← pubEncrypt rsaInitialize rsaM rsaD rsaN
      if encrypted < 0 then return (false, dest)
      else
        let limbs ← rsaC.limbs rsaC.iLength32
        let dest ← inBounds (Memory.write dest 0 (bytesOfLimbs limbs))
        return (true, ← invertChar dest byteLenN)

/-- `RSA_M` when it is copied out: its value is used whatever `prv_Decrypt`
returned. -/
def prvDecrypted (prvE modN : Option (List UInt8)) (byteLenN : Nat) (cipher : List UInt8) :
    Except Fault SBigInt := do
  let rsaE ← setUnlessNull prvE byteLenN
  let rsaN ← setUnlessNull modN byteLenN
  let rsaC ← setParameterCharOpenssl cipher byteLenN
  let (_, rsaM) ← prvDecrypt rsaInitialize rsaC rsaE rsaN
  return rsaM

/-- The return value with the contents of `dest` afterwards. An array of no
positive size is undefined. -/
def rsaPrvDec (prvE modN : Option (List UInt8)) (bitLenN : Int) (cipher dest : List UInt8)
    (stack : Nat → UInt8) : Except Fault (Int × List UInt8) := do
  if bitLenN / 8 ≤ 0 then .error .outOfBounds
  else
    let byteLenN := (bitLenN / 8).toNat
    let text ← textBlock byteLenN stack (← prvDecrypted prvE modN byteLenN cipher)
    paddingCheckPKCS1Type2 dest byteLenN text.tail (byteLenN - 1) byteLenN

/-- The first byte of a block is zero. -/
theorem bigEndianValue_zero_lt (rest : List UInt8) :
    bigEndianValue (0 :: rest) < Digit.base UInt8 ^ rest.length := by
  have hFirst : bigEndianValue (0 :: rest) = bigEndianValue rest := bigEndianValue_cons 0 rest
  exact hFirst ▸ bigEndianValue_lt rest

/-- The block type is in the top word. -/
theorem le_bigEndianValue {blockType : UInt8} (h : blockType ≠ 0) (rest : List UInt8) :
    Digit.base UInt8 ^ rest.length ≤ bigEndianValue (0 :: blockType :: rest) := by
  have hPos : 0 < blockType.toNat := Nat.pos_of_ne_zero fun hZero => h (UInt8.toNat_inj.mp hZero)
  have hFirst : bigEndianValue (0 :: blockType :: rest) = bigEndianValue (blockType :: rest) :=
    bigEndianValue_cons 0 _
  rw [hFirst, bigEndianValue_cons]
  exact (Nat.le_mul_of_pos_right _ hPos).trans (Nat.le_add_left _ _)

namespace SignedMessage

def pubEnc (i : SignedMessage) (dest : List UInt8) (stack : Nat → UInt8) :
    Except Fault (Bool × List UInt8) :=
  rsaPubEnc (some (bigEndian 4 i.pubD)) (some i.modNBytes) (32 * i.words : Nat)
    i.message i.message.length dest stack

def prvDec (i : SignedMessage) (cipher dest : List UInt8) (stack : Nat → UInt8) :
    Except Fault (Int × List UInt8) :=
  rsaPrvDec (some (bigEndian (4 * i.words) i.prvE)) (some i.modNBytes) (32 * i.words : Nat)
    cipher dest stack

def plainBytes (i : SignedMessage) : List UInt8 := type2Block (4 * i.words) i.message

theorem length_plainBytes (i : SignedMessage) : i.plainBytes.length = 4 * i.words := by
  have hMessage := i.length_message
  exact length_type2Block (by omega)

/-- The padded message as a number. -/
def plain (i : SignedMessage) : Numeral := .ofBytes i.plainBytes i.words i.length_plainBytes

/-- The second byte of the block is not zero, so that the block has all its
limbs. -/
theorem le_plain (i : SignedMessage) : limbBase ^ (i.words - 1) ≤ i.plain.value := by
  have hWords := i.four_le_words
  have hLength := i.length_plainBytes
  rw [plainBytes, type2Block, List.length_cons, List.length_cons] at hLength
  refine le_trans ?_ (le_bigEndianValue (by decide) _)
  rw [← base_pow_words]
  exact Nat.pow_le_pow_right (by decide) (by omega)

/-- The block begins with a zero byte and is less than the modulus. -/
theorem plain_below (i : SignedMessage) : i.plain.Below i.key := by
  have hWords := i.four_le_words
  have hLength := i.length_plainBytes
  rw [plainBytes, type2Block, List.length_cons] at hLength
  refine Or.inr ⟨rfl, (bigEndianValue_zero_lt _).trans_le ?_⟩
  calc
    Digit.base UInt8 ^ _ = 2 ^ (8 * (4 * i.words - 1)) := by
      rw [show 4 * i.words - 1 = _ from (Nat.sub_eq_of_eq_add hLength.symm), Nat.pow_mul]
      rfl
    _ ≤ 2 ^ (32 * i.words - 1) := Nat.pow_le_pow_right (by decide) (by omega)
    _ ≤ i.modN := i.two_pow_le

/-- The public exponent in one limb. -/
def publicExponent (i : SignedMessage) : Numeral where
  value := i.pubD
  length := 1
  bounded := i.pubD_lt

/-- The number that encryption computes, unless it gets stuck. -/
def encrypted (i : SignedMessage) : Option Numeral := Numeral.power i.key i.plain i.pubD

theorem encrypted_spec {i : SignedMessage} {c : Numeral} (h : i.encrypted = some c) :
    c.Below i.key ∧ c.value = i.plain.value ^ i.pubD % i.modN :=
  Numeral.power_spec i.pubD_pos.ne' i.plain_below h

/-- The code's encryption of stored numerals is that of the numerals. -/
theorem pubEncrypt_eq (i : SignedMessage) :
    pubEncrypt rsaInitialize i.plain.toBig i.publicExponent.toBig i.key.toBig =
      inBounds (i.encrypted.map fun c => (1, c.toBig)) := by
  have hMax : i.words ≤ bigintMaxlen := i.words_le.trans (by decide)
  have hCmp := Numeral.cmp_neg_iff.mpr i.plain_below
  have hOne : i.publicExponent.length = 1 := rfl
  rw [pubEncrypt, Numeral.cmp_toBig (show i.plain.length ≤ _ from hMax), ok_bind,
    if_neg (by omega), Numeral.rsaTrans_ladder i.words_le (Nat.le_refl i.words) (by omega)
      (hOne ▸ by decide), Numeral.topBit_one hOne]
  change inBounds (i.encrypted.map Numeral.toBig) >>= _ = _
  cases i.encrypted <;> rfl

/-- The limbs of a number are put over the buffer, and what is left of it
comes first. -/
theorem copied_signature {c : Numeral} {words : Nat} (hLength : c.length ≤ words)
    (hMax : words ≤ bigintMaxlen) {dest : List UInt8} (hDest : dest.length = 4 * words) :
    (do let limbs ← c.toBig.limbs c.toBig.iLength32
        let dest ← inBounds (Memory.write dest 0 (bytesOfLimbs limbs))
        return (true, ← invertChar dest (4 * words))) = .ok (true, signature c dest) := by
  have hCopied : (bytesOfLimbs c.limbs).length = 4 * c.length := by
    rw [length_bytesOfLimbs, Numeral.length_limbs]
  have hWrite : Memory.write dest 0 (bytesOfLimbs c.limbs) =
      some (bytesOfLimbs c.limbs ++ dest.drop (4 * c.length)) := by
    rw [Memory.write, if_pos (by omega), hCopied, Nat.zero_add]
    rfl
  have hFull : (bytesOfLimbs c.limbs ++ dest.drop (4 * c.length)).length = 4 * words := by
    rw [List.length_append, hCopied, List.length_drop]
    omega
  rw [Numeral.iLength32_toBig, Numeral.limbs_toBig _ (hLength.trans hMax), ok_bind]
  change inBounds (Memory.write dest 0 (bytesOfLimbs c.limbs)) >>= _ = _
  rw [hWrite, inBounds, ok_bind, ← hFull, invertChar_whole]
  rfl

/-- The call writes the limbs of the encrypted block over the destination. -/
theorem pubEnc_eq (i : SignedMessage) {dest : List UInt8} (hDest : dest.length = 4 * i.words)
    (stack : Nat → UInt8) :
    i.pubEnc dest stack = inBounds (i.encrypted.map fun c => (true, signature c dest)) := by
  have hWords := i.four_le_words
  have hBound := i.words_le
  have hMax : i.words ≤ bigintMaxlen := hBound.trans (by decide)
  have hBytes : ((32 * i.words : Nat) : Int) / 8 = (4 * i.words : Nat) := by omega
  have hD : setUnlessNull (some (bigEndian 4 i.pubD)) 4 = .ok i.publicExponent.toBig :=
    setParameter_bigEndian i.publicExponent.bounded (show 1 ≤ bigintMaxlen by decide)
  have hN : setUnlessNull (some i.modNBytes) (4 * i.words) = .ok i.key.toBig :=
    setParameter_bigEndian i.lt_limbBase_pow hMax
  have hAdd : paddingAddPKCS1Type2 ((List.range (4 * i.words)).map stack) (4 * i.words) i.message
      i.message.length = .ok (1, i.plainBytes) := by
    apply paddingAddType2_eq _ i.length_message
    · rw [Numeral.maxModulusLength] at hBound
      omega
    · simp
  have hM : setParameterCharOpenssl i.plainBytes (4 * i.words) = .ok i.plain.toBig :=
    setParameterCharOpenssl_eq i.length_plainBytes hMax
  rw [pubEnc, rsaPubEnc]
  simp only [hBytes, Int.toNat_natCast]
  rw [if_neg (by omega), hD, ok_bind, hN, ok_bind, hAdd, ok_bind]
  dsimp only
  rw [if_neg (by decide), hM, ok_bind, pubEncrypt_eq]
  cases hEncrypted : i.encrypted with
  | none => rfl
  | some c =>
      rw [Option.map_some, inBounds, ok_bind, if_neg (show ¬(1 : Int) < 0 by decide)]
      exact copied_signature (encrypted_spec hEncrypted).1.length_le hMax hDest

/-- The number that decryption computes, unless it gets stuck. -/
def decryptedNumber (i : SignedMessage) (c : Numeral) : Option Numeral :=
  Numeral.ladder i.key c i.exponent.value i.exponent.topBit c

/-- The decryption of a cipher below the modulus is its power, reduced. -/
theorem prvDecrypted_eq (i : SignedMessage) {cipher : List UInt8}
    (h : cipher.length = 4 * i.words) (hBelow : (Numeral.ofBytes cipher i.words h).Below i.key) :
    prvDecrypted (some (bigEndian (4 * i.words) i.prvE)) (some i.modNBytes) (4 * i.words) cipher =
      inBounds ((i.decryptedNumber (.ofBytes cipher i.words h)).map Numeral.toBig) := by
  have hMax : i.words ≤ bigintMaxlen := i.words_le.trans (by decide)
  have hPos : 0 < i.words := i.key.length_pos
  have hCmp := Numeral.cmp_neg_iff.mpr hBelow
  have hE : setUnlessNull (some (bigEndian (4 * i.words) i.prvE)) (4 * i.words) =
      .ok i.exponent.toBig := setParameter_bigEndian i.exponent.bounded hMax
  have hN : setUnlessNull (some i.modNBytes) (4 * i.words) = .ok i.key.toBig :=
    setParameter_bigEndian i.lt_limbBase_pow hMax
  rw [prvDecrypted, hE, ok_bind, hN, ok_bind, setParameterCharOpenssl_eq h hMax, ok_bind,
    prvDecrypt, Numeral.cmp_toBig hMax, ok_bind, if_neg (by omega),
    Numeral.rsaTrans_ladder i.words_le (Nat.le_refl i.words) hPos hMax]
  change (inBounds ((i.decryptedNumber _).map Numeral.toBig) >>= _) >>= _ = _
  cases i.decryptedNumber (.ofBytes cipher i.words h) <;> rfl

/-- The decrypted number is the padded message, if the private exponent is
raised to as it is. -/
theorem decrypted_plain {i : SignedMessage} {c z : Numeral} (hEncrypted : i.encrypted = some c)
    (hBit : 2 ^ (32 * i.words - 33) ≤ i.prvE) (hDecrypted : i.decryptedNumber c = some z) :
    z = i.plain := by
  obtain ⟨hcBelow, hcValue⟩ := encrypted_spec hEncrypted
  obtain ⟨hzBelow, hzValue⟩ := Numeral.ladder_raised hcBelow hDecrypted
  have hRaised : i.exponent.raised = i.prvE := by
    have hSame : 32 * (i.exponent.length - 1) - 1 = 32 * i.words - 33 := by
      change 32 * (i.words - 1) - 1 = _
      omega
    rw [Numeral.raised_eq, hSame, if_pos (show _ ≤ i.exponent.value from hBit)]
    rfl
  have hPower : z.value ≡ i.plain.value [MOD i.modN] := by
    calc
      z.value ≡ c.value ^ i.prvE [MOD i.modN] := by
        rw [hzValue, hRaised]
        exact Nat.mod_modEq _ _
      _ ≡ (i.plain.value ^ i.pubD) ^ i.prvE [MOD i.modN] := by
        rw [hcValue]
        exact (Nat.mod_modEq _ _).pow _
      _ ≡ i.plain.value [MOD i.modN] := by
        rw [← pow_mul]
        exact i.inverse_modN i.plain.value
  have hValue : z.value = i.plain.value :=
    Nat.ModEq.eq_of_lt_of_lt hPower hzBelow.value_lt i.plain_below.value_lt
  refine Numeral.ext hValue ?_
  have hHigh : limbBase ^ (i.words - 1) < limbBase ^ z.length :=
    (hValue ▸ i.le_plain).trans_lt z.bounded
  have hLength : i.words - 1 < z.length := (Nat.pow_lt_pow_iff_right (by decide)).mp hHigh
  have hMax : z.length ≤ i.words := hzBelow.length_le
  change z.length = i.words
  omega

/-- The text of the padded message, whatever the stack held. -/
theorem textBlock_plain (i : SignedMessage) (stack : Nat → UInt8) :
    textBlock (4 * i.words) stack i.plain.toBig = .ok i.plainBytes := by
  have hMax : i.words ≤ bigintMaxlen := i.words_le.trans (by decide)
  have hLimbs : i.plain.toBig.ulValue.take i.words = i.plain.limbs := take_encode _ hMax
  have hLength : (bytesOfLimbs i.plain.limbs).reverse.length = 4 * i.words := by
    rw [List.length_reverse, length_bytesOfLimbs, Numeral.length_limbs]
    rfl
  have hValue : bigEndianValue (bytesOfLimbs i.plain.limbs).reverse =
      bigEndianValue i.plainBytes := by
    rw [bigEndianValue, List.reverse_reverse, value_bytesOfLimbs, Numeral.value_limbs]
    rfl
  have hText : (bytesOfLimbs i.plain.limbs).reverse = i.plainBytes := by
    calc
      (bytesOfLimbs i.plain.limbs).reverse =
          bigEndian (bytesOfLimbs i.plain.limbs).reverse.length
            (bigEndianValue (bytesOfLimbs i.plain.limbs).reverse) := bigEndian_value.symm
      _ = bigEndian i.plainBytes.length (bigEndianValue i.plainBytes) := by
        rw [hLength, hValue, length_plainBytes]
      _ = i.plainBytes := bigEndian_value
  rw [textBlock_eq, Numeral.iLength32_toBig, if_pos ⟨hMax, Nat.le_refl _⟩]
  change Except.ok (bytesOfLimbs (i.plain.toBig.ulValue.take i.words) ++
    ((List.range (4 * i.words)).map stack).drop (4 * i.words)).reverse = _
  rw [hLimbs, List.drop_of_length_le (by simp), List.append_nil, hText]

/-- A number that fills the words of the modulus is decrypted to the
message, whatever the stack held. -/
theorem prvDec_eq (i : SignedMessage) {c : Numeral} (hEncrypted : i.encrypted = some c)
    (hFull : c.length = i.words) (hBit : 2 ^ (32 * i.words - 33) ≤ i.prvE)
    (hLadder : i.decryptedNumber c ≠ none) {dest out : List UInt8}
    (hDest : dest.length = 4 * i.words) (hOut : i.message.length ≤ out.length)
    (stack : Nat → UInt8) :
    i.prvDec (signature c dest) out stack =
      .ok ((i.message.length : Int), i.message ++ out.drop i.message.length) := by
  have hWords := i.four_le_words
  have hBytes : ((32 * i.words : Nat) : Int) / 8 = (4 * i.words : Nat) := by omega
  have hLength := length_signature hFull.le hDest
  have hNumber : Numeral.ofBytes (signature c dest) i.words hLength = c :=
    written_full i hFull hDest
  obtain ⟨z, hz⟩ := Option.ne_none_iff_exists'.mp hLadder
  obtain rfl := decrypted_plain hEncrypted hBit hz
  have hDecrypted := i.prvDecrypted_eq hLength (hNumber.symm ▸ (encrypted_spec hEncrypted).1)
  rw [hNumber, hz] at hDecrypted
  rw [prvDec, rsaPrvDec]
  simp only [hBytes, Int.toNat_natCast]
  rw [if_neg (by omega), hDecrypted, Option.map_some, inBounds, ok_bind, textBlock_plain, ok_bind]
  have hText : 2 ≤ i.plainBytes.length := by
    rw [length_plainBytes]
    omega
  have hCheck : paddingCheckPKCS1Type2 out i.plainBytes.length i.plainBytes.tail
      (i.plainBytes.length - 1) i.plainBytes.length = _ := paddingCheckType2_eq hText
  rw [length_plainBytes, plainBytes, payloadType2_type2Block i.length_message] at hCheck
  have hWrite : Memory.write out 0 i.message = some (i.message ++ out.drop i.message.length) := by
    rw [Memory.write, if_pos (by omega)]
    simp
  refine hCheck.trans ?_
  dsimp only
  rw [hWrite]
  rfl

/-- A message that is encrypted to a number of as many words as the modulus
comes back, whatever the buffers and the stack held, if the ladder of the
private exponent is carried out and the exponent has a bit from `32 * words
- 33` on. -/
theorem encryption_roundTrip (i : SignedMessage) {c : Numeral} (hEncrypted : i.encrypted = some c)
    (hFull : c.length = i.words) (hBit : 2 ^ (32 * i.words - 33) ≤ i.prvE)
    (hLadder : i.decryptedNumber c ≠ none) {dest : List UInt8} (hDest : dest.length = 4 * i.words)
    (stack : Nat → UInt8) :
    ∃ cipher, i.pubEnc dest stack = .ok (true, cipher) ∧ ∀ (out : List UInt8)
      (stack' : Nat → UInt8), i.message.length ≤ out.length →
        i.prvDec cipher out stack' =
          .ok ((i.message.length : Int), i.message ++ out.drop i.message.length) := by
  refine ⟨signature c dest, ?_, fun out stack' hOut =>
    i.prvDec_eq hEncrypted hFull hBit hLadder hDest hOut stack'⟩
  rw [pubEnc_eq i hDest, hEncrypted]
  rfl

/-- The padded message of `shortSignature` to the third power. -/
def shortCipher : Numeral := ⟨46877184473629163808593291580, 3, by decide⟩

theorem shortSignature_encrypted : shortSignature.encrypted = some shortCipher := by
  have hParts : shortSignature.encrypted.map (fun c => (c.value, c.length)) =
      some (shortCipher.value, shortCipher.length) := by decide +kernel
  obtain ⟨c, hEncrypted, hSame⟩ := Option.map_eq_some_iff.mp hParts
  obtain ⟨hValue, hLength⟩ := Prod.mk.inj hSame
  rw [hEncrypted, Numeral.ext hValue hLength]

/-- The message of the example is encrypted and decrypted again. -/
theorem encryption_roundTrip_short :
    ∃ cipher, shortSignature.pubEnc (List.replicate 12 0xff) (fun _ => 0) = .ok (true, cipher) ∧
      ∀ (out : List UInt8) (stack' : Nat → UInt8), shortSignature.message.length ≤ out.length →
        shortSignature.prvDec cipher out stack' =
          .ok ((shortSignature.message.length : Int),
            shortSignature.message ++ out.drop shortSignature.message.length) :=
  encryption_roundTrip shortSignature shortSignature_encrypted rfl (by decide +kernel)
    (by decide +kernel) List.length_replicate _

/-- The same key with another message. -/
def withMessage (i : SignedMessage) {message : List UInt8}
    (h : message.length + 11 ≤ 4 * i.words) : SignedMessage :=
  { i with message, length_message := h }

/-- Padded messages with the same number are the same. -/
theorem message_of_plain (i : SignedMessage) {message : List UInt8}
    (h : message.length + 11 ≤ 4 * i.words)
    (hPlain : i.plain.value = (i.withMessage h).plain.value) : i.message = message := by
  have hLength' : (i.withMessage h).plainBytes.length = 4 * i.words :=
    (i.withMessage h).length_plainBytes
  have hBytes : i.plainBytes = (i.withMessage h).plainBytes := by
    calc
      i.plainBytes = bigEndian i.plainBytes.length (bigEndianValue i.plainBytes) :=
        bigEndian_value.symm
      _ = bigEndian (i.withMessage h).plainBytes.length
          (bigEndianValue (i.withMessage h).plainBytes) := by
        rw [length_plainBytes, hLength']
        exact congrArg _ hPlain
      _ = (i.withMessage h).plainBytes := bigEndian_value
  have hSome := payloadType2_type2Block i.length_message
  have hSome' : payloadType2 (i.withMessage h).plainBytes = some message :=
    payloadType2_type2Block h
  rw [← hBytes] at hSome'
  exact Option.some.inj (hSome.symm.trans hSome')

/-- What a number that fills its words is written as. -/
theorem signature_full {i : SignedMessage} {c : Numeral} (hFull : c.length = i.words)
    {dest : List UInt8} (hDest : dest.length = 4 * i.words) :
    signature c dest = (bytesOfLimbs c.limbs).reverse := by
  rw [signature, List.drop_of_length_le (by omega), List.append_nil]

/-- The padding is the same for all messages: two ciphertexts of one key are
equal exactly when their messages are. -/
theorem cipher_eq_iff (i : SignedMessage) {message : List UInt8}
    (h : message.length + 11 ≤ 4 * i.words) {c c' : Numeral} (hEncrypted : i.encrypted = some c)
    (hEncrypted' : (i.withMessage h).encrypted = some c') (hFull : c.length = i.words)
    (hFull' : c'.length = i.words) {dest dest' : List UInt8} (hDest : dest.length = 4 * i.words)
    (hDest' : dest'.length = 4 * i.words) (stack stack' : Nat → UInt8) :
    i.pubEnc dest stack = (i.withMessage h).pubEnc dest' stack' ↔ i.message = message := by
  rw [pubEnc_eq i hDest, pubEnc_eq (i.withMessage h) hDest', hEncrypted, hEncrypted']
  simp only [Option.map_some, inBounds, Except.ok.injEq, Prod.mk.injEq, true_and]
  constructor
  · intro hCipher
    have hSame : c.value = c'.value := by
      have hNumber := congrArg Numeral.value (written_full i hFull hDest)
      have hNumber' := congrArg Numeral.value (written_full (i.withMessage h) hFull' hDest')
      exact hNumber.symm.trans ((congrArg bigEndianValue hCipher).trans hNumber')
    obtain ⟨hBelow, hValue⟩ := encrypted_spec hEncrypted
    obtain ⟨hBelow', hValue'⟩ := encrypted_spec hEncrypted'
    apply i.message_of_plain h
    have hPower : i.plain.value ^ i.pubD ≡ (i.withMessage h).plain.value ^ i.pubD [MOD i.modN] :=
      hValue.symm.trans (hSame.trans hValue')
    exact Nat.ModEq.eq_of_lt_of_lt (i.inverse_modN.pow_injective hPower) i.plain_below.value_lt
      (i.withMessage h).plain_below.value_lt
  · rintro rfl
    obtain rfl : c = c' := Option.some.inj (hEncrypted.symm.trans hEncrypted')
    rw [signature_full hFull hDest, signature_full hFull hDest']

/-- The number of another message. -/
def otherCipher : Numeral := ⟨43634084794686675090228567490, 3, by decide⟩

theorem withMessage_encrypted (h : [(0x42 : UInt8)].length + 11 ≤ 4 * shortSignature.words) :
    (shortSignature.withMessage h).encrypted = some otherCipher := by
  have hParts : (shortSignature.withMessage h).encrypted.map (fun c => (c.value, c.length)) =
      some (otherCipher.value, otherCipher.length) := by decide +kernel +revert
  obtain ⟨c, hEncrypted, hSame⟩ := Option.map_eq_some_iff.mp hParts
  obtain ⟨hValue, hLength⟩ := Prod.mk.inj hSame
  rw [hEncrypted, Numeral.ext hValue hLength]

/-- The two ciphers are equal exactly if the messages are. The padding does
not tell them apart. -/
theorem cipher_eq_iff_short :
    shortSignature.pubEnc (List.replicate 12 0xff) (fun _ => 0) =
      (shortSignature.withMessage (show [(0x42 : UInt8)].length + 11 ≤ 4 * 3 by decide)).pubEnc
        (List.replicate 12 0) (fun _ => 1) ↔ shortSignature.message = [0x42] :=
  cipher_eq_iff shortSignature _ shortSignature_encrypted (withMessage_encrypted _) rfl rfl
    List.length_replicate List.length_replicate _ _

end SignedMessage

end SignImage
