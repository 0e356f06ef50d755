import Mathlib.Tactic.NormNum.Prime
import Gtexswifi.SignImage.KeyGeneration
import Gtexswifi.SignImage.Opening

/-! What `RSA_Create` returns: the product of the two numbers that it has
found, and an inverse of the public exponent. An exponent without an inverse
is given the inverse 1, which is too short, so that the search starts again. -/
namespace SignImage

open Radix

open Numeral (normal)

/-- Nothing is borrowed from an odd number. -/
theorem subLong_odd {v : Nat} (sOut : SBigInt) (hOdd : v % 2 = 1)
    (hLength : (normal v).length = (normal (v - 1)).length) :
    subLong sOut (normal v).toBig 1 = .ok (normal (v - 1)).toBig := by
  have hLow : (UInt32.ofNat v).toNat = v % 2 ^ 32 := UInt32.toNat_ofNat'
  have hFirst : UInt32.ofNat ((UInt32.ofNat v).toNat - 1) = UInt32.ofNat (v - 1) := by
    apply UInt32.toNat_inj.mp
    rw [hLow, UInt32.toNat_ofNat', UInt32.toNat_ofNat']
    omega
  have hRest : v / limbBase = (v - 1) / limbBase := by
    unfold limbBase
    omega
  have hLimbs : [UInt32.ofNat ((UInt32.ofNat v).toNat - 1)] ++
      (encode bigintMaxlen v : List UInt32).drop 1 = encode bigintMaxlen (v - 1) := by
    change _ :: (encode 65 (v / limbBase) : List UInt32) =
      UInt32.ofNat (v - 1) :: encode 65 ((v - 1) / limbBase)
    rw [hFirst, hRest]
  rw [subLong, low_toBig, ok_bind, Numeral.value_normal, if_pos (by rw [hLow]; omega)]
  refine (dif_pos (show 1 ≤ bigintMaxlen by decide)).trans (congrArg Except.ok ?_)
  rw [SBigInt.mk.injEq]
  exact ⟨hLength, hLimbs⟩

/-- An odd number whose top bit is set in the last of `length` limbs. -/
structure Candidate (length v : Nat) : Prop where
  pos : 0 < length
  odd : v % 2 = 1
  top : limbBase ^ (length - 1) * 2 ^ 31 ≤ v
  bounded : v < limbBase ^ length

namespace Candidate

variable {length v : Nat}

/-- A candidate is above the weight of its top limb, also without its lowest
bit. -/
theorem two_lt (h : Candidate length v) : limbBase ^ (length - 1) < v - 1 := by
  have hPow := Nat.pow_pos (n := length - 1) limbBase_pos
  have hTop := h.top
  omega

/-- A candidate has its top bit set, so that it is 2^31 at least. -/
theorem le_pred (h : Candidate length v) : 2 ^ 31 ≤ v - 1 + 1 := by
  have hPow := Nat.pow_pos (n := length - 1) limbBase_pos
  have hLeast := Nat.le_mul_of_pos_left (2 ^ 31) hPow
  have hTop := h.top
  omega

theorem length_normal (h : Candidate length v) : (normal v).length = length := by
  have hNormal := Numeral.eq_normal (x := ⟨v, length, h.bounded⟩) h.pos
    (h.two_lt.le.trans (Nat.sub_le v 1))
  exact congrArg Numeral.length hNormal.symm

theorem length_pred (h : Candidate length v) : (normal (v - 1)).length = length := by
  have hNormal := Numeral.eq_normal (x := ⟨v - 1, length, (Nat.sub_le v 1).trans_lt h.bounded⟩)
    h.pos h.two_lt.le
  exact congrArg Numeral.length hNormal.symm

/-- Subtracting one from a candidate borrows nothing, since it is odd. -/
theorem subLong_one (h : Candidate length v) (sOut : SBigInt) :
    subLong sOut (normal v).toBig 1 = .ok (normal (v - 1)).toBig :=
  subLong_odd sOut h.odd (h.length_normal.trans h.length_pred.symm)

end Candidate

/-- The top bit of the last limb. -/
theorem le_value_setTop {limbs : List UInt32} (h : 0 < limbs.length) :
    limbBase ^ (limbs.length - 1) * 2 ^ 31 ≤
      value (limbs.modify (limbs.length - 1) (· ||| 0x80000000)) := by
  have hTop (a : UInt32) : 2 ^ 31 ≤ (a ||| 0x80000000).toNat := by
    rw [UInt32.toNat_or]
    exact Nat.right_le_or
  rw [List.modify_eq_take_cons_drop (by omega), Nat.sub_add_cancel h, List.drop_length,
    value_append, value_singleton, List.length_take, Nat.min_eq_left (Nat.sub_le _ 1)]
  exact (Nat.mul_le_mul_left _ (hTop _)).trans (Nat.le_add_left _ _)

/-- Setting the two end bits of any limbs makes them a candidate. -/
theorem withEndBits_candidate {limbs : List UInt32} (h : 0 < limbs.length) :
    (withEndBits limbs).length = limbs.length ∧
      Candidate limbs.length (value (withEndBits limbs)) := by
  have hLength : (withEndBits limbs).length = limbs.length := by
    rw [withEndBits, List.length_modify, List.length_modify]
  refine ⟨hLength, h, ?_, ?_, ?_⟩
  · have hOdd (a : UInt32) : (a ||| 0x11).toNat % 2 = 1 := by
      rw [UInt32.toNat_or, Nat.or_mod_two_eq_one]
      exact Or.inr rfl
    have hStill (a : UInt32) : (a ||| 0x11 ||| 0x80000000).toNat % 2 = 1 := by
      rw [UInt32.toNat_or, Nat.or_mod_two_eq_one]
      exact Or.inl (hOdd a)
    have hSum (a : UInt32) (rest : List UInt32) :
        value (a :: rest) % 2 = a.toNat % 2 := by
      rw [value_cons, base_uint32, limbBase, toNat_uint32]
      omega
    cases limbs with
    | nil => cases h
    | cons a rest =>
        cases rest with
        | nil => exact (hSum _ _).trans (hStill a)
        | cons b rest => exact (hSum _ _).trans (hOdd a)
  · have hFirst : (limbs.modify 0 (· ||| 0x11)).length = limbs.length := List.length_modify _ _ _
    have hTop := le_value_setTop (hFirst.symm ▸ h)
    rwa [hFirst] at hTop
  · have hBound := value_lt (withEndBits limbs)
    rwa [hLength] at hBound

section Run

variable {σ : Type} {myrand : σ → UInt32 × σ} {stack : SBigInt}

theorem length_randLimbs (myrand : σ → UInt32 × σ) (count : Nat) (s : σ) :
    (randLimbs myrand count s).1.length = count := by
  induction count generalizing s with
  | zero => rfl
  | succ count ih => exact congrArg (· + 1) (ih _)

/-- Whatever `Rab` finds out, the number has the shape of the candidates. -/
theorem getPrime_candidate {iLength32 trials : Nat} {s s' : σ} {sOut : SBigInt}
    (h : getPrime myrand stack iLength32 trials s = .ok (sOut, s')) :
    ∃ p, sOut = (normal p).toBig ∧ Candidate iLength32 p := by
  induction trials generalizing s with
  | zero => cases h
  | succ trials ih =>
      rw [getPrime] at h
      split_ifs at h with hNone
      cases hDrawn : randLimbs myrand iLength32 s with
      | mk limbs s₁ =>
          simp only [hDrawn] at h
          obtain ⟨candidate, hCandidate, h⟩ := bind_eq_ok.mp h
          obtain ⟨⟨prime, s₂⟩, -, h⟩ := bind_eq_ok.mp h
          cases prime with
          | false => exact ih h
          | true =>
              obtain ⟨rfl, -⟩ := Prod.mk.inj (Except.ok.inj h)
              obtain rfl : limbs.length = iLength32 := by
                rw [← length_randLimbs myrand iLength32 s, hDrawn]
              obtain ⟨hLength, hShape⟩ := withEndBits_candidate (Nat.pos_of_ne_zero hNone)
              have hMax : (withEndBits limbs).length ≤ bigintMaxlen := by
                by_contra hOver
                rw [SBigInt.ofLimbs, dif_neg hOver] at hCandidate
                cases hCandidate
              rw [Numeral.ofLimbs_toBig hMax] at hCandidate
              refine ⟨value (withEndBits limbs), ?_, hShape⟩
              have hNormal := Numeral.eq_normal (x := .ofLimbs (withEndBits limbs))
                (hShape.pos.trans_eq hLength.symm)
                (by
                  rw [Numeral.length_ofLimbs, hLength]
                  exact hShape.two_lt.le.trans (Nat.sub_le _ 1))
              rw [← Except.ok.inj hCandidate, hNormal]
              rfl

end Run

section Arithmetic

variable {length p q e : Nat}

/-- A product of two numbers of at most 1024 bits. -/
theorem mulBigint_normal {a b : Nat} (ha : 0 < a) (hb : 0 < b) (hMax : length ≤ 32)
    (haLess : a < limbBase ^ length) (hbLess : b < limbBase ^ length) :
    mulBigint (normal a).toBig (normal b).toBig = .ok (normal (a * b)).toBig ∧
      a * b < limbBase ^ (2 * length) := by
  have hPos : 0 < length := by
    rcases Nat.eq_zero_or_pos length with rfl | hPos
    · rw [Nat.pow_zero] at haLess
      omega
    · exact hPos
  have hLess : a * b < limbBase ^ (2 * length) := by
    rw [Nat.two_mul, Nat.pow_add]
    exact Nat.mul_lt_mul'' haLess hbLess
  have hLength : (normal (a * b)).length ≤ bigintMaxlen := by
    have hFits := Numeral.length_normal_le (show 0 < 2 * length by omega) hLess
    have hLimbs : bigintMaxlen = 66 := rfl
    omega
  refine ⟨?_, hLess⟩
  rw [Numeral.mulBigint_toBig (Numeral.length_normal_pos a) (Numeral.length_normal_pos b)
    (by rwa [Numeral.mul_normal ha hb]), Numeral.mul_normal ha hb]

/-- The exponent as `RSA_D` holds it. -/
theorem setExponent (hPos : 0 < e) (h : e < 2 ^ 32) :
    setParameterCharOpenssl (bigEndian 4 e) 4 = .ok (normal e).toBig := by
  have hSet := @setParameterCharOpenssl_eq (bigEndian 4 e) 1 (length_bigEndian 4 e) (by decide)
  rw [Nat.mul_one] at hSet
  have hValue : bigEndianValue (bigEndian 4 e) = e := by
    rw [bigEndianValue_bigEndian]
    exact Nat.mod_eq_of_lt h
  have hNormal := Numeral.eq_normal (x := .ofBytes (bigEndian 4 e) 1 (length_bigEndian 4 e))
    Nat.one_pos (hPos.trans_eq hValue.symm)
  rw [hSet, hNormal]
  exact congrArg (fun v => Except.ok (normal v).toBig) hValue

/-- A prime without an inverse divides the modulus. Its inverse is then
given as 1. -/
theorem coprime_of_inverse {m : Nat} (hPrime : e.Prime) (hLess : e < m)
    (hLong : 1 < (normal (Euclid.inverse hLess)).length) : Nat.gcd m e = 1 := by
  by_cases hDvd : e ∣ m
  · have hOne : (normal (Euclid.inverse hLess)).length = 1 := by
      rw [Euclid.inverse_of_dvd hLess hPrime.ne_zero hDvd]
      exact Numeral.length_normal_limb (by decide)
    omega
  · exact ((hPrime.coprime_iff_not_dvd).mpr hDvd).symm

end Arithmetic

/-- A number of `2 * length` limbs, copied to a buffer and turned around. -/
theorem bigEndianValue_copied {v length : Nat} {buffer stored out : List UInt8}
    (hPos : 0 < length) (hLess : v < limbBase ^ (2 * length))
    (hWrite : inBounds (Memory.write buffer 0 (bytesOfLimbs (encode (2 * length) v))) = .ok stored)
    (hInvert : invertChar stored (8 * length) = .ok out) :
    bigEndianValue (out.take (8 * length)) = v := by
  have hCells : (bytesOfLimbs (encode (2 * length) v)).length = 8 * length := by
    rw [length_bytesOfLimbs, length_encode]
    omega
  have hValue : value (bytesOfLimbs (encode (2 * length) v)) = v := by
    rw [value_bytesOfLimbs, value_encode_of_lt hLess]
  generalize bytesOfLimbs (encode (2 * length) v) = cells at *
  rw [Memory.write] at hWrite
  split_ifs at hWrite with hFits
  · have hStored : stored = cells ++ buffer.drop (8 * length) := by
      rw [← Except.ok.inj hWrite, List.take_zero, List.nil_append, Nat.zero_add, hCells]
    have hRange := Memory.slice_zero_append cells (buffer.drop (8 * length))
    rw [hCells, ← hStored] at hRange
    rw [invertChar, if_neg (by omega), hRange] at hInvert
    rw [← Except.ok.inj hInvert, List.take_left' (by rw [List.length_reverse, hCells]),
      bigEndianValue, List.reverse_reverse, hValue]
  · cases hWrite

namespace Generated

/-- The two numbers. -/
def p (key : Generated) : Nat := key.rsaP.numeral.value

def q (key : Generated) : Nat := key.rsaQ.numeral.value

end Generated

theorem value_numeral {v : Nat} (h : (normal v).length ≤ bigintMaxlen) :
    (normal v).toBig.numeral.value = v := by
  have hTake := take_encode (α := UInt32) v h
  have hValue := value_encode_of_lt (α := UInt32) (normal v).bounded
  exact (congrArg value hTake).trans hValue

section Run

variable {σ : Type} {myrand : σ → UInt32 × σ} {stack : SBigInt}

/-- Every run that ends has found a key, for an exponent that is prime. -/
theorem rsaCreateFrom_key {trials fuel exponent length : Nat} {modN prvExp : List UInt8} {s s' : σ}
    {key : Generated} (hPrime : exponent.Prime) (hExponent : exponent < 2 ^ 31)
    (hMax : length ≤ 32)
    (h : rsaCreateFrom myrand stack trials (bigEndian 4 exponent) (64 * length) modN prvExp fuel
      s = .ok (key, s')) :
    bigEndianValue (key.modN.take (8 * length)) = key.p * key.q ∧
      exponent * bigEndianValue (key.prvExp.take (8 * length)) ≡ 1
        [MOD (key.p - 1) * (key.q - 1)] := by
  induction fuel generalizing s with
  | zero => cases h
  | succ fuel ih =>
      rw [rsaCreateFrom, Nat.mul_div_cancel_left _ (by decide),
        setExponent hPrime.pos (by omega), ok_bind] at h
      obtain ⟨⟨rsaP, s₁⟩, hGetP, h⟩ := bind_eq_ok.mp h
      obtain ⟨⟨rsaQ, s₂⟩, hGetQ, h⟩ := bind_eq_ok.mp h
      obtain ⟨p, rfl, hp⟩ := getPrime_candidate hGetP
      obtain ⟨q, rfl, hq⟩ := getPrime_candidate hGetQ
      have hpLeast := hp.le_pred
      have hqLeast := hq.le_pred
      obtain ⟨hProduct, hProductLess⟩ := mulBigint_normal (show 0 < p by omega)
        (show 0 < q by omega) hMax hp.bounded hq.bounded
      obtain ⟨hTotient, hTotientLess⟩ := mulBigint_normal (show 0 < p - 1 by omega)
        (show 0 < q - 1 by omega) hMax ((Nat.sub_le p 1).trans_lt hp.bounded)
        ((Nat.sub_le q 1).trans_lt hq.bounded)
      have hLess : exponent < (p - 1) * (q - 1) := by
        calc
          exponent < (p - 1) * 2 := by omega
          _ ≤ (p - 1) * (q - 1) := Nat.mul_le_mul_left _ (by omega)
      have hModulus : (p - 1) * (q - 1) < limbBase ^ Numeral.maxModulusLength :=
        hTotientLess.trans_le (Nat.pow_le_pow_right limbBase_pos (by
          have hLimbs : Numeral.maxModulusLength = 64 := rfl
          omega))
      have hRoom : Numeral.maxModulusLength ≤ bigintMaxlen := by decide
      have hIn := Numeral.holds_toBig ((Numeral.length_normal_le_max hLess.le hModulus).trans hRoom)
      have hN := Numeral.holds_toBig
        ((Numeral.length_normal_le_max (Nat.le_refl _) hModulus).trans hRoom)
      simp only [hProduct, hp.subLong_one, hq.subLong_one, hTotient, ok_bind,
        euc_holds stack hPrime.pos hLess hModulus hIn hN] at h
      by_cases hShort : (normal (Euclid.inverse hLess)).toBig.iLength32 < 2 * length
      · rw [if_pos hShort] at h
        exact ih h
      · rw [if_neg hShort] at h
        have hInverse : Euclid.inverse hLess < limbBase ^ (2 * length) :=
          (Euclid.inverse_le hLess).trans_lt hTotientLess
        have hPos := hp.pos
        have hWords : (normal (Euclid.inverse hLess)).toBig.iLength32 = 2 * length :=
          Nat.le_antisymm (Numeral.length_normal_le (by omega) hInverse) (by omega)
        have hLong : 1 < (normal (Euclid.inverse hLess)).length := by
          rw [← Numeral.iLength32_toBig, hWords]
          omega
        have hRoom : 2 * length ≤ bigintMaxlen := by
          have hLimbs : bigintMaxlen = 66 := rfl
          omega
        have hBytes : 64 * length / 8 = 8 * length := by omega
        rw [hWords, Numeral.limbs_toBig _ hRoom, Numeral.limbs_toBig _ hRoom, hBytes, ok_bind] at h
        obtain ⟨storedExp, hWriteExp, h⟩ := bind_eq_ok.mp h
        obtain ⟨outExp, hInvertExp, h⟩ := bind_eq_ok.mp h
        rw [ok_bind] at h
        obtain ⟨storedN, hWriteN, h⟩ := bind_eq_ok.mp h
        obtain ⟨outN, hInvertN, h⟩ := bind_eq_ok.mp h
        obtain ⟨rfl, rfl⟩ := Prod.mk.inj (Except.ok.inj h)
        have hp' : Generated.p ⟨(normal p).toBig, (normal q).toBig, outN, outExp⟩ = p :=
          value_numeral (by rw [hp.length_normal]; omega)
        have hq' : Generated.q ⟨(normal p).toBig, (normal q).toBig, outN, outExp⟩ = q :=
          value_numeral (by rw [hq.length_normal]; omega)
        rw [hp', hq', bigEndianValue_copied hPos hProductLess hWriteN hInvertN,
          bigEndianValue_copied hPos hInverse hWriteExp hInvertExp]
        exact ⟨rfl, Euclid.mul_inverse hLess (coprime_of_inverse hPrime hLess hLong)⟩

/-- For every source of numbers and both exponents, a run that returns
`true` has generated a key: the modulus is the product of the two numbers
found last, and the private exponent inverts the public one. -/
theorem rsaCreate_key (myrand : σ → UInt32 × σ) (stack : SBigInt) (trials fuel : Nat)
    {exponent bitLenN : Nat} (hExponent : exponent = 3 ∨ exponent = 65537) (hWords : 64 ∣ bitLenN)
    (hMax : bitLenN ≤ 2048) (modN prvExp : Option (List UInt8)) (s : σ) {key : Generated} {s' : σ}
    (h : rsaCreate myrand stack trials fuel (bigEndian 4 exponent) bitLenN modN prvExp s =
      .ok (some (key, s'))) :
    bigEndianValue (key.modN.take (bitLenN / 8)) = key.p * key.q ∧
      exponent * bigEndianValue (key.prvExp.take (bitLenN / 8)) ≡ 1
        [MOD (key.p - 1) * (key.q - 1)] := by
  obtain ⟨length, rfl⟩ := hWords
  have hPrime : exponent.Prime := by
    rcases hExponent with rfl | rfl <;> norm_num
  cases modN with
  | none => cases h
  | some modN =>
      cases prvExp with
      | none => cases h
      | some prvExp =>
          obtain ⟨result, hRun, h⟩ := bind_eq_ok.mp h
          obtain rfl := Option.some.inj (Except.ok.inj h)
          have hBytes : 64 * length / 8 = 8 * length := by omega
          rw [hBytes]
          exact rsaCreateFrom_key hPrime (by omega) (by omega) hRun

end Run

/-- The halves of two primes of 32 bits, and ones for the tests. -/
def luckyRand (i : Nat) : UInt32 × Nat :=
  (match i with
    | 0 => 32768
    | 1 => 435
    | 18 => 32768
    | 19 => 1203
    | _ => 1, i + 1)

def luckyBig (limb : UInt32) : SBigInt where
  iLength32 := 1
  ulValue := limb :: List.replicate 65 0
  size := rfl

def luckyKey : Generated where
  rsaP := luckyBig 0x800001b3
  rsaQ := luckyBig 0x800004b3
  modN := [64, 0, 3, 51, 0, 7, 252, 41]
  prvExp := [42, 170, 172, 204, 0, 5, 78, 131]

/-- The run of the example, whose random source gives two primes at once. -/
theorem rsaCreate_lucky : rsaCreate luckyRand rsaInitialize 1 1 (bigEndian 4 3) 64
    (some (List.replicate 8 0)) (some (List.replicate 8 0)) 0 = .ok (some (luckyKey, 36)) := by
  decide +kernel

/-- The key of the run is one: its modulus is the product, and its exponents
are inverse. -/
theorem rsaCreate_key_lucky :
    bigEndianValue (luckyKey.modN.take (64 / 8)) = luckyKey.p * luckyKey.q ∧
      3 * bigEndianValue (luckyKey.prvExp.take (64 / 8)) ≡ 1
        [MOD (luckyKey.p - 1) * (luckyKey.q - 1)] :=
  rsaCreate_key luckyRand rsaInitialize 1 1 (Or.inl rfl) (Nat.dvd_refl 64) (by decide) _ _ 0
    rsaCreate_lucky

end SignImage
