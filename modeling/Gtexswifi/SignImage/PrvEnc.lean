import Gtexswifi.SignImage.StackDependence

/-! `RSA_PrvEnc`: the padded message to the power of the private exponent,
copied over what the output buffer held. -/
namespace SignImage

open Radix

/-- The return value with `RSA_C` afterwards. -/
def prvEncrypt (rsaC rsaM rsaE rsaN : SBigInt) : Except Fault (Int × SBigInt) := do
  if 0 ≤ (← cmp rsaM rsaN) then return (-1, rsaC)
  else return (1, ← rsaTrans rsaM rsaE rsaN)

/-- The first `len` bytes turned around. The middle byte of a range is not
touched. -/
def invertChar (src : List UInt8) (len : Nat) : Except Fault (List UInt8) := do
  if len ≤ 1 then return src
  else
    let range ← inBounds (Memory.slice src 0 len)
    return range.reverse ++ src.drop len

/-- The return value with the contents of `to` afterwards. The array
`textpadded[byteLenN]` starts with what the stack held; one of no positive
size is undefined. -/
def rsaPrvEnc (prvE modN : Option (List UInt8)) (bitLenN : Int) (data : List UInt8) (flen : Int)
    (dest : List UInt8) (stack : Nat → UInt8) : Except Fault (Bool × List UInt8) := do
  if bitLenN / 8 ≤ 0 then .error .outOfBounds
  else
    let byteLenN := (bitLenN / 8).toNat
    let rsaE ← setUnlessNull prvE byteLenN
    let rsaN ← setUnlessNull modN byteLenN
    let (added, textpadded) ←
      paddingAddPKCS1Type1 ((List.range byteLenN).map stack) byteLenN data flen
    if added ≤ 0 then return (false, dest)
    else
      let rsaM ← setParameterCharOpenssl textpadded byteLenN
      let (encrypted, rsaC) ← prvEncrypt rsaInitialize rsaM rsaE rsaN
      if encrypted < 0 then return (false, dest)
      else
        -- only the limbs that the length counts are copied
        let limbs ← rsaC.limbs rsaC.iLength32
        let dest ← inBounds (Memory.write dest 0 (bytesOfLimbs limbs))
        return (true, ← invertChar dest byteLenN)

theorem invertChar_whole (src : List UInt8) : invertChar src src.length = .ok src.reverse := by
  unfold invertChar
  split
  · next hShort =>
      cases src with
      | nil => rfl
      | cons b rest =>
          obtain rfl : rest = [] := by
            apply List.eq_nil_of_length_eq_zero
            rw [List.length_cons] at hShort
            omega
          rfl
  · have hRange : Memory.slice src 0 src.length = some src := by
      simpa using Memory.slice_zero_append src []
    rw [hRange, inBounds, ok_bind, List.drop_length, List.append_nil]
    rfl

end SignImage
