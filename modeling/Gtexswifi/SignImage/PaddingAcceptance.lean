import Gtexswifi.SignImage.RoundTrip

/-! Which blocks `RSA_PubDec` accepts. It hands the block over from the
second byte on, so that the first one may be anything. -/
namespace SignImage

/-- The check as `RSA_PubDec` calls it. -/
def checkBlock (dest text : List UInt8) : Except Fault (Int × List UInt8) :=
  paddingCheckPKCS1Type1 dest text.length text.tail (text.length - 1) text.length

/-- A run of `RSA_PubDec` is the check of the block that it decrypts. -/
theorem rsaPubDec_checkBlock (pubD modN : List UInt8) (bitLenN : Int)
    (signature dest : List UInt8) (stack : Nat → UInt8) :
    rsaPubDec (some pubD) (some modN) bitLenN signature dest stack =
      rsaBlock (some pubD) (some modN) bitLenN signature stack >>= checkBlock dest := by
  unfold rsaPubDec
  cases hBlock : rsaBlock (some pubD) (some modN) bitLenN signature stack with
  | error fault => rfl
  | ok text =>
      unfold rsaBlock at hBlock
      split_ifs at hBlock with hNone
      obtain ⟨rsaM, -, hText⟩ := bind_eq_ok.mp hBlock
      rw [ok_bind, ok_bind, checkBlock, length_of_textBlock hText]

/-- The block of some data: `00 01`, at least eight bytes `ff`, `00`, the
data. -/
def PaddedData (text data : List UInt8) : Prop :=
  ∃ padding, 8 ≤ padding ∧ text = 0 :: 1 :: (List.replicate padding 0xff ++ 0 :: data)

/-- The check gives a length and data exactly for the block of the data.
Otherwise it returns -1 and leaves the buffer as it was. -/
structure ExactlyAccepts (text dest : List UInt8) : Prop where
  accepts : ∀ (n : Int) (out : List UInt8), 0 ≤ n →
    (checkBlock dest text = .ok (n, out) ↔
      ∃ data, PaddedData text data ∧ n = data.length ∧ out = data ++ dest.drop data.length)
  rejects : (∀ data, ¬PaddedData text data) → checkBlock dest text = .ok (-1, dest)

section Check

variable {text dest : List UInt8}

/-- A block without a payload is refused, and the destination is left. -/
theorem checkBlock_none (hLength : 2 ≤ text.length) (h : payload text = none) :
    checkBlock dest text = .ok (-1, dest) := by
  rw [checkBlock, paddingCheck_eq hLength, h]

theorem checkBlock_some {data : List UInt8} (hLength : 2 ≤ text.length)
    (hRoom : text.length ≤ dest.length + 11) (h : payload text = some data) :
    checkBlock dest text = .ok ((data.length : Int), data ++ dest.drop data.length) := by
  have hFits : 0 + data.length ≤ dest.length := by
    have hData := length_of_payload h
    omega
  rw [checkBlock, paddingCheck_eq hLength, h]
  dsimp only
  rw [Memory.write, if_pos hFits, Nat.zero_add]
  rfl

/-- The layout is the one that the check reads, with a first byte of zero. -/
theorem paddedData_iff {data : List UInt8} :
    PaddedData text data ↔ text.head? = some 0 ∧ payload text = some data := by
  rw [payload_eq_some]
  constructor
  · rintro ⟨padding, hPadding, rfl⟩
    exact ⟨rfl, 0, padding, hPadding, rfl⟩
  · rintro ⟨hHead, first, padding, hPadding, rfl⟩
    obtain rfl := Option.some.inj hHead
    exact ⟨padding, hPadding, rfl⟩

/-- The check reads no data when the bytes behind the first one are not laid
out. -/
theorem payload_eq_none_iff (hLength : 2 ≤ text.length) :
    payload text = none ↔
      ∀ padding data, 8 ≤ padding → text.tail ≠ 1 :: (List.replicate padding 0xff ++ 0 :: data) := by
  rw [Option.eq_none_iff_forall_ne_some]
  constructor
  · intro hNone padding data hPadding hTail
    cases text with
    | nil => cases hLength
    | cons first rest =>
        exact hNone data (payload_eq_some.mpr ⟨first, padding, hPadding, congrArg _ hTail⟩)
  · intro hNone data hSome
    obtain ⟨first, padding, hPadding, rfl⟩ := payload_eq_some.mp hSome
    exact hNone padding data hPadding rfl

theorem exactlyAccepts_of_none (hLength : 2 ≤ text.length) (h : payload text = none) :
    ExactlyAccepts text dest where
  accepts := by
    intro n out hn
    rw [checkBlock_none hLength h]
    constructor
    · intro hRun
      obtain ⟨rfl, -⟩ := Prod.mk.inj (Except.ok.inj hRun)
      cases hn
    · rintro ⟨data, hData, -⟩
      rw [paddedData_iff, h] at hData
      cases hData.2
  rejects := fun _ => checkBlock_none hLength h

theorem exactlyAccepts_of_some {data : List UInt8} (hLength : 2 ≤ text.length)
    (hRoom : text.length ≤ dest.length + 11) (hHead : text.head? = some 0)
    (h : payload text = some data) : ExactlyAccepts text dest where
  accepts := by
    intro n out _
    rw [checkBlock_some hLength hRoom h]
    constructor
    · intro hRun
      obtain ⟨rfl, rfl⟩ := Prod.mk.inj (Except.ok.inj hRun)
      exact ⟨data, paddedData_iff.mpr ⟨hHead, h⟩, rfl, rfl⟩
    · rintro ⟨other, hOther, rfl, rfl⟩
      obtain rfl := Option.some.inj (h.symm.trans (paddedData_iff.mp hOther).2)
      rfl
  rejects := fun hNone => absurd (paddedData_iff.mpr ⟨hHead, h⟩) (hNone data)

/-- A block with another first byte is accepted all the same. -/
theorem not_exactlyAccepts {data : List UInt8} (hLength : 2 ≤ text.length)
    (hRoom : text.length ≤ dest.length + 11) (hHead : text.head? ≠ some 0)
    (h : payload text = some data) : ¬ExactlyAccepts text dest := by
  intro hExact
  have hNone := hExact.rejects fun other hOther => hHead (paddedData_iff.mp hOther).1
  rw [checkBlock_some hLength hRoom h] at hNone
  obtain ⟨hMinus, -⟩ := Prod.mk.inj (Except.ok.inj hNone)
  omega

/-- The check of a block of any length, into a buffer that has room for the
data, is exact if and only if the first byte is zero or the bytes behind it
are not accepted anyway. -/
theorem exactlyAccepts_iff (hLength : 12 ≤ text.length)
    (hRoom : text.length ≤ dest.length + 11) :
    ExactlyAccepts text dest ↔
      text.head? = some 0 ∨ ∀ padding data, 8 ≤ padding →
        text.tail ≠ 1 :: (List.replicate padding 0xff ++ 0 :: data) := by
  have hTwo : 2 ≤ text.length := by omega
  rw [← payload_eq_none_iff hTwo]
  constructor
  · intro hExact
    by_contra hNeither
    obtain ⟨hHead, hSome⟩ := not_or.mp hNeither
    obtain ⟨data, hData⟩ := Option.ne_none_iff_exists'.mp hSome
    exact not_exactlyAccepts hTwo hRoom hHead hData hExact
  · intro hCondition
    cases hPayload : payload text with
    | none => exact exactlyAccepts_of_none hTwo hPayload
    | some data =>
        have hHead := hCondition.resolve_right (by rw [hPayload]; exact Option.some_ne_none data)
        exact exactlyAccepts_of_some hTwo hRoom hHead hPayload

end Check

theorem exactlyAccepts_oneByte :
    ExactlyAccepts (0 :: 1 :: (List.replicate 8 0xff ++ [0, 0x41])) [0] :=
  (exactlyAccepts_iff (by decide) (by decide)).mpr (Or.inl rfl)

namespace SignedMessage

/-- The number `01 01 ff .. ff 00 41` raised to the private exponent of the
key of 96 bits. -/
def oneFirst : List UInt8 := bigEndian 12 0x1ac4be8b7135e46687e9309c

/-- A signature over a block whose first byte is one. -/
theorem oneFirst_accepted :
    let text : List UInt8 := 1 :: 1 :: (List.replicate 8 0xff ++ [0, 0x41])
    rsaBlock (some (bigEndian 4 3)) (some shortSignature.modNBytes) 96 oneFirst (fun _ => 0) =
        .ok text ∧
      checkBlock [0] text = .ok (1, [0x41]) ∧ ¬ExactlyAccepts text [0] := by
  have hLength : oneFirst.length = 4 * shortSignature.words := by decide
  refine ⟨?_, by decide, ?_⟩
  · change textBlock 12 _ =<< (shortSignature.opening hLength).rsaM = _
    rw [(shortSignature.opening hLength).rsaM_eq (shortSignature.modulus_opening hLength)]
    decide +kernel +revert
  · exact not_exactlyAccepts (by decide) (by decide) (by decide) (show _ = some [0x41] by decide)

end SignedMessage

end SignImage
