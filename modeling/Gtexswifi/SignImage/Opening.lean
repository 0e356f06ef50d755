import Gtexswifi.SignImage.Exponentiation
import Gtexswifi.SignImage.Rsa

/-! Opening a signature with a key of whole limbs: when it is defined, and
when its result is a matter of its inputs alone. -/
namespace SignImage

open Radix

/-- The numeral of a buffer of big-endian bytes. -/
def Numeral.ofBytes (bytes : List UInt8) (length : Nat) (h : bytes.length = 4 * length) :
    Numeral where
  value := bigEndianValue bytes
  length := length
  bounded := by
    have hValue := value_lt bytes.reverse
    rwa [List.length_reverse, h, Nat.pow_mul, base_uint8_pow] at hValue

theorem setParameterCharOpenssl_eq {bytes : List UInt8} {length : Nat}
    (h : bytes.length = 4 * length) (hMax : length ≤ bigintMaxlen) :
    setParameterCharOpenssl bytes (4 * length) = .ok (Numeral.ofBytes bytes length h).toBig := by
  have hSlice : Memory.slice bytes 0 (4 * length) = some bytes := by
    simpa [h] using Memory.slice_zero_append bytes []
  rw [setParameterCharOpenssl, hSlice, Nat.mul_div_cancel_left _ (by decide)]
  change SBigInt.ofLimbs (limbsOfBytes length bytes.reverse) = _
  rw [Numeral.ofLimbs_toBig (by simpa using hMax)]
  congr 2
  apply Numeral.ext
  · exact value_limbsOfBytes (by rw [List.length_reverse, h])
  · exact length_limbsOfBytes _ _

theorem rsaInitialize_eq : rsaInitialize = (Numeral.normal 0).toBig := by
  simp only [rsaInitialize, Numeral.toBig, Numeral.normal, encode_zero_right, Radix.width,
    Nat.log_zero_right]
  rfl

/-- The arguments of `RSA_PubDec` for a modulus of `words` limbs, with a
buffer for the data as long as the modulus. -/
structure PubDecInput where
  words : Nat
  words_le : words ≤ Numeral.maxModulusLength
  pubD : List UInt8
  length_pubD : pubD.length = 4 * 1
  modN : List UInt8
  length_modN : modN.length = 4 * words
  signature : List UInt8
  length_signature : signature.length = 4 * words
  dest : List UInt8
  length_dest : dest.length = 4 * words

namespace PubDecInput

def byteLen (i : PubDecInput) : Nat := 4 * i.words

def run (i : PubDecInput) (stack : Nat → UInt8) : Except Fault (Int × List UInt8) :=
  rsaPubDec (some i.pubD) (some i.modN) (32 * i.words : Nat) i.signature i.dest stack

/-- `RSA_M` after `pub_Decrypt`. -/
def rsaM (i : PubDecInput) : Except Fault SBigInt :=
  decrypted (some i.pubD) (some i.modN) i.byteLen i.signature

def modulus (i : PubDecInput) : Numeral := .ofBytes i.modN i.words i.length_modN

def cipher (i : PubDecInput) : Numeral := .ofBytes i.signature i.words i.length_signature

def exponent (i : PubDecInput) : Nat := bigEndianValue i.pubD

/-- The number that the signature opens to under a modulus: zero when the
signature is not smaller, and nothing when the ladder gets stuck. -/
def opened (i : PubDecInput) (n : Modulus) : Option Numeral :=
  if i.cipher.value < n.value then Numeral.power n i.cipher i.exponent else some (.normal 0)

/-- The block that the code opens is the power of the signature, reduced. -/
theorem rsaM_eq (i : PubDecInput) {n : Modulus} (hn : n.toNumeral = i.modulus) :
    i.rsaM = inBounds ((i.opened n).map Numeral.toBig) := by
  have hLength : n.length = i.words := congrArg Numeral.length hn
  have hMax : i.words ≤ bigintMaxlen := i.words_le.trans (by decide)
  have hExponent : i.exponent < 2 ^ 32 := (Numeral.ofBytes i.pubD 1 i.length_pubD).bounded
  obtain ⟨e, he, heValue⟩ : ∃ e : UInt32,
      Numeral.ofBytes i.pubD 1 i.length_pubD = Numeral.ofLimbs [e] ∧ e.toNat = i.exponent := by
    refine ⟨UInt32.ofNat i.exponent, ?_, ?_⟩
    · apply Numeral.ext
      · rw [Numeral.value_ofLimbs, value_singleton, toNat_uint32,
          UInt32.toNat_ofNat_of_lt' hExponent]
        rfl
      · rfl
    · exact UInt32.toNat_ofNat_of_lt' hExponent
  have hBelow : i.cipher.Below n ↔ i.cipher.value < n.value := by
    have hSame : i.cipher.length = n.length := hLength.symm
    simp [Numeral.Below, hSame]
  have hDecrypted : i.rsaM =
      pubDecrypt rsaInitialize i.cipher.toBig (Numeral.ofLimbs [e]).toBig n.toBig >>= fun r =>
        .ok r.2 := by
    rw [rsaM, decrypted, setUnlessNull, setUnlessNull, byteLen,
      setParameterCharOpenssl_eq i.length_pubD (by decide),
      setParameterCharOpenssl_eq i.length_modN hMax,
      setParameterCharOpenssl_eq i.length_signature hMax, he, hn]
    rfl
  rw [hDecrypted, pubDecrypt, Numeral.cmp_toBig (show i.cipher.length ≤ _ from hMax), ok_bind,
    opened]
  by_cases hLess : i.cipher.value < n.value
  · have hCmp := Numeral.cmp_neg_iff.mpr (hBelow.mpr hLess)
    rw [if_neg (by omega), if_pos hLess,
      Numeral.rsaTrans_toBig (hLength.trans_le i.words_le) hLength.ge, heValue]
    cases Numeral.power n i.cipher i.exponent <;> rfl
  · have hCmp : ¬i.cipher.cmp n.toNumeral < 0 := fun h =>
      hLess (hBelow.mp (Numeral.cmp_neg_iff.mp h))
    rw [if_pos (by omega), if_neg hLess, rsaInitialize_eq]
    rfl

/-- Opening a signature into any buffer. -/
theorem rsaPubDec_rsaM (i : PubDecInput) (hWords : 0 < i.words) (dest : List UInt8)
    (stack : Nat → UInt8) :
    rsaPubDec (some i.pubD) (some i.modN) (32 * i.words : Nat) i.signature dest stack = do
      let rsaM ← i.rsaM
      let text ← textBlock i.byteLen stack rsaM
      match payload text with
      | none => .ok (-1, dest)
      | some data => do return ((data.length : Int), ← inBounds (Memory.write dest 0 data)) := by
  have hBytes : ((32 * i.words : Nat) : Int) / 8 = (4 * i.words : Nat) := by omega
  rw [rsaPubDec_eq, rsaBlock]
  simp only [hBytes]
  rw [if_neg (by omega), Int.toNat_natCast]
  exact bind_assoc i.rsaM _ _

/-- The call is the block, its padding, and the copy of what stands behind
it. -/
theorem run_eq (i : PubDecInput) (hWords : 0 < i.words) (stack : Nat → UInt8) :
    i.run stack = do
      let rsaM ← i.rsaM
      let text ← textBlock i.byteLen stack rsaM
      match payload text with
      | none => .ok (-1, i.dest)
      | some data => do return ((data.length : Int), ← inBounds (Memory.write i.dest 0 data)) :=
  i.rsaPubDec_rsaM hWords i.dest stack

/-- Whatever block comes out of the copy, its data has room in `dest`. -/
theorem run_defined_iff_rsaM (i : PubDecInput) (hWords : 0 < i.words) (stack : Nat → UInt8) :
    (∃ result, i.run stack = .ok result) ↔ ∃ m, i.rsaM = .ok m ∧ m.iLength32 ≤ i.words := by
  rw [run_eq i hWords]
  constructor
  · rintro ⟨result, hRun⟩
    obtain ⟨m, hM, hRun⟩ := bind_eq_ok.mp hRun
    obtain ⟨text, hText, -⟩ := bind_eq_ok.mp hRun
    rw [textBlock_eq] at hText
    split_ifs at hText with hFits
    exact ⟨m, hM, Nat.le_of_mul_le_mul_left hFits.2 (by decide)⟩
  · rintro ⟨m, hM, hLength⟩
    have hFits : m.iLength32 ≤ bigintMaxlen ∧ 4 * m.iLength32 ≤ i.byteLen :=
      ⟨hLength.trans (i.words_le.trans (by decide)), Nat.mul_le_mul_left 4 hLength⟩
    obtain ⟨text, hText⟩ : ∃ text, textBlock i.byteLen stack m = .ok text :=
      ⟨_, by rw [textBlock_eq, if_pos hFits]⟩
    rw [hM, ok_bind, hText, ok_bind]
    cases hPayload : payload text with
    | none => exact ⟨_, rfl⟩
    | some data =>
        have hRoom : data.length + 11 ≤ i.dest.length := by
          rw [i.length_dest, ← byteLen, ← length_of_textBlock hText]
          exact length_of_payload hPayload
        have hWrite : Memory.write i.dest 0 data = some _ := if_pos (by omega)
        simp only [hWrite, inBounds, ok_bind]
        exact ⟨_, rfl⟩

end PubDecInput

/-- The arguments of `RSA_PubDec` with a modulus whose top word is not zero
and an exponent other than zero. -/
structure KeyedInput extends PubDecInput where
  top_ne_zero : limbBase ^ (words - 1) ≤ bigEndianValue modN
  exponent_ne_zero : bigEndianValue pubD ≠ 0

namespace KeyedInput

theorem words_pos (i : KeyedInput) : 0 < i.words := by
  apply Nat.pos_of_ne_zero
  intro hNone
  have hValue := i.modulus.bounded
  have hTop := i.top_ne_zero
  rw [hNone] at hTop
  rw [show i.modulus.length = 0 from hNone] at hValue
  exact absurd hTop (Nat.not_le.mpr hValue)

/-- The modulus of the key. -/
def key (i : KeyedInput) : Modulus where
  toNumeral := i.modulus
  length_pos := i.words_pos
  top_ne_zero := i.top_ne_zero

theorem opened_below {i : KeyedInput} {m : Numeral} (h : i.opened i.key = some m) :
    m.Below i.key := by
  unfold PubDecInput.opened at h
  split_ifs at h with hLess
  · have hBelow : i.cipher.Below i.key := Or.inr ⟨rfl, hLess⟩
    exact (Numeral.power_spec i.exponent_ne_zero hBelow h).1
  · obtain rfl := Option.some.inj h
    exact Numeral.normal_below_iff.mpr i.key.value_pos

/-- `RSA_PubDec` terminates inside the bounds of its bignums unless the
signature is smaller than the modulus and its ladder comes to a zero longer
than the modulus. -/
theorem rsaPubDec_defined_iff (i : KeyedInput) (stack : Nat → UInt8) :
    (∃ result, i.run stack = .ok result) ↔
      (i.cipher.value < i.key.value → Numeral.power i.key i.cipher i.exponent ≠ none) := by
  rw [i.run_defined_iff_rsaM i.words_pos, i.rsaM_eq (n := i.key) rfl]
  have hOpened : (i.cipher.value < i.key.value →
      Numeral.power i.key i.cipher i.exponent ≠ none) ↔ i.opened i.key ≠ none := by
    unfold PubDecInput.opened
    split_ifs with hLess <;> simp [hLess]
  rw [hOpened]
  cases hCase : i.opened i.key with
  | none => simp [inBounds]
  | some m =>
      constructor
      · exact fun _ => Option.some_ne_none m
      · exact fun _ => ⟨m.toBig, rfl, (opened_below hCase).length_le⟩

/-- A number whose top two limbs are zero gets stuck in the first square of
the ladder. -/
theorem power_eq_none (i : KeyedInput) (hWords : 2 ≤ i.words) (hExponent : 2 ≤ i.exponent)
    (hSmall : i.cipher.value < limbBase ^ (i.words - 2)) :
    Numeral.power i.key i.cipher i.exponent = none := by
  have hLimbs : i.cipher.limbs = encode (i.words - 2) i.cipher.value ++ [0, 0] := by
    have hEncode := Numeral.encode_eq_append hSmall (show i.words - 2 ≤ i.words by omega)
    rwa [show i.words - (i.words - 2) = 2 by omega] at hEncode
  have hBits : 0 < Nat.log 2 i.exponent := Nat.log_pos (by decide) hExponent
  obtain ⟨count, hCount⟩ := Nat.exists_eq_succ_of_ne_zero hBits.ne'
  have hStuck : Numeral.mulMod i.key i.cipher i.cipher = none :=
    Numeral.mulMod_eq_none hLimbs rfl
  rw [Numeral.power, hCount, Numeral.ladder, hStuck]
  rfl

/-- The all-zero signature under a modulus of two words, with exponent 3. -/
def zeroSignature : KeyedInput where
  words := 2
  words_le := by decide
  pubD := [0, 0, 0, 3]
  length_pubD := rfl
  modN := [0xff, 0xff, 0xff, 0xff, 0xff, 0xff, 0xff, 0xff]
  length_modN := rfl
  signature := List.replicate 8 0
  length_signature := rfl
  dest := List.replicate 8 0
  length_dest := rfl
  top_ne_zero := by decide
  exponent_ne_zero := by decide

/-- The scan of `Sub_bigint` for a non-zero top limb goes below limb 0. -/
theorem zeroSignature_outOfBounds :
    zeroSignature.run (fun _ => 0) = .error .outOfBounds ∧
      ¬∀ (i : KeyedInput) (stack : Nat → UInt8), ∃ result, i.run stack = .ok result := by
  have hFault : zeroSignature.run (fun _ => 0) = .error .outOfBounds := by decide +kernel
  refine ⟨hFault, fun hDefined => ?_⟩
  obtain ⟨result, hRun⟩ := hDefined zeroSignature fun _ => 0
  rw [hFault] at hRun
  cases hRun

end KeyedInput

end SignImage
