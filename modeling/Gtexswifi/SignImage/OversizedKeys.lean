import Gtexswifi.SignImage.KeySizes

/-! Certificates that state other sizes. Each of them comes to `RSA_PubDec`,
and the one whose signature opens to the longest data overflows the buffer. -/
namespace SignImage

open Radix

theorem bytesOfLimbs_limbsOfBytes {count : Nat} {bytes : List UInt8} (h : 4 * count ≤ bytes.length) :
    bytesOfLimbs (limbsOfBytes count bytes) = bytes.take (4 * count) := by
  induction count generalizing bytes with
  | zero => rfl
  | succ count ih =>
      have hWord : (bytes.take 4).length = 4 := by
        rw [List.length_take]
        omega
      have hValue : value (bytes.take 4) < 2 ^ 32 := by
        have hLess := value_lt (bytes.take 4)
        rwa [hWord] at hLess
      have hFirst : encode 4 (UInt32.ofNat (value (bytes.take 4))).toNat = bytes.take 4 := by
        have hCode := encode_value (bytes.take 4)
        rwa [hWord, ← UInt32.toNat_ofNat_of_lt' hValue] at hCode
      rw [limbsOfBytes, bytesOfLimbs, List.flatMap_cons, hFirst]
      change bytes.take 4 ++ bytesOfLimbs (limbsOfBytes count (bytes.drop 4)) = _
      rw [ih (by rw [List.length_drop]; omega), Nat.mul_succ, Nat.add_comm, List.take_add]

/-- The limbs that a parameter of any length is copied to: what is left of a
last limb is not. -/
theorem setParameterCharOpenssl_bytes {bytes rest : List UInt8}
    (hMax : bytes.length / 4 ≤ bigintMaxlen) :
    setParameterCharOpenssl (bytes ++ rest) bytes.length =
      .ok (Numeral.ofLimbs (limbsOfBytes (bytes.length / 4) bytes.reverse)).toBig := by
  rw [setParameterCharOpenssl, Memory.slice_zero_append]
  exact Numeral.ofLimbs_toBig (by rwa [length_limbsOfBytes])

theorem value_replicate_ones (count : Nat) :
    value (List.replicate count (0xff : UInt8)) + 1 = Digit.base UInt8 ^ count := by
  induction count with
  | zero => rfl
  | succ count ih =>
      rw [List.replicate_succ, value_cons, Nat.pow_succ, ← ih]
      change 255 + 256 * _ + 1 = (_ + 1) * 256
      ring

/-- The value of the limbs is that of the bytes they are made of. -/
theorem value_limbsOfBytes_take {count : Nat} {bytes : List UInt8}
    (h : 4 * count ≤ bytes.length) :
    value (limbsOfBytes count bytes) = value (bytes.take (4 * count)) := by
  rw [← value_bytesOfLimbs, bytesOfLimbs_limbsOfBytes h]

theorem value_limbsOfBytes_ones (byteLen : Nat) :
    value (limbsOfBytes (byteLen / 4) (List.replicate byteLen 0xff)) + 1 =
      limbBase ^ (byteLen / 4) := by
  have hWhole : 4 * (byteLen / 4) ≤ byteLen := Nat.mul_div_le byteLen 4
  rw [value_limbsOfBytes_take (by rwa [List.length_replicate]), List.take_replicate,
    Nat.min_eq_left hWhole, value_replicate_ones, Nat.pow_mul, base_uint8_pow, base_uint32]

/-- The largest modulus of so many bytes. -/
def onesModulus {byteLen : Nat} (h : 4 ≤ byteLen) : Modulus where
  toNumeral := Numeral.ofLimbs (limbsOfBytes (byteLen / 4) (List.replicate byteLen 0xff))
  length_pos := by
    rw [Numeral.length_ofLimbs, length_limbsOfBytes]
    omega
  top_ne_zero := by
    have hOnes := value_limbsOfBytes_ones byteLen
    obtain ⟨words, hWords⟩ : ∃ words, byteLen / 4 = words + 1 := ⟨byteLen / 4 - 1, by omega⟩
    rw [Numeral.length_ofLimbs, length_limbsOfBytes, Numeral.value_ofLimbs, hWords,
      Nat.add_sub_cancel]
    rw [hWords, Nat.pow_succ] at hOnes
    have hPos := Nat.pow_pos (n := words) limbBase_pos
    have hTwice : limbBase ^ words * 2 ≤ limbBase ^ words * limbBase :=
      Nat.mul_le_mul_left _ (by decide)
    omega

/-- A block that ends in a zero byte is smaller. -/
theorem value_lt_onesModulus {byteLen : Nat} (h : 4 ≤ byteLen) {low : List UInt8}
    (hLow : low.length + 1 = byteLen) :
    value (limbsOfBytes (byteLen / 4) (0 :: low)) < (onesModulus h).value := by
  have hOnes := value_limbsOfBytes_ones byteLen
  have hBound := value_lt (limbsOfBytes (byteLen / 4) (0 :: low))
  have hWhole : 4 * (byteLen / 4) ≤ (0 :: low).length := by
    rw [List.length_cons]
    omega
  have hTake : (0 :: low).take (4 * (byteLen / 4)) = 0 :: low.take (4 * (byteLen / 4) - 1) := by
    rw [List.take_cons (by omega)]
  have hEven : value (limbsOfBytes (byteLen / 4) (0 :: low)) % 2 = 0 := by
    rw [value_limbsOfBytes_take hWhole, hTake, value_cons]
    change (0 + 256 * _) % 2 = 0
    omega
  have hPower : limbBase ^ (byteLen / 4) % 2 = 0 := by
    obtain ⟨words, hWords⟩ : ∃ words, byteLen / 4 = words + 1 := ⟨byteLen / 4 - 1, by omega⟩
    rw [hWords, Nat.pow_succ, Nat.mul_mod]
    rfl
  rw [length_limbsOfBytes, base_uint32] at hBound
  change _ < value (limbsOfBytes (byteLen / 4) (List.replicate byteLen 0xff))
  omega

/-- With exponent one, a number smaller than the modulus is its own power. -/
theorem pubDecrypt_exponentOne {n : Modulus} (hn : n.length ≤ Numeral.maxModulusLength)
    {c : Numeral} (hLength : c.length = n.length) (hLess : c.value < n.value) (rsaM : SBigInt) :
    pubDecrypt rsaM c.toBig (Numeral.ofLimbs [1]).toBig n.toBig = .ok (1, c.toBig) := by
  have hBelow : c.Below n := Or.inr ⟨hLength, hLess⟩
  have hCmp := Numeral.cmp_neg_iff.mpr hBelow
  have hMax : c.length ≤ bigintMaxlen := hLength.trans_le (hn.trans (by decide))
  have hOne : (1 : UInt32).toNat = 1 := rfl
  rw [pubDecrypt, Numeral.cmp_toBig hMax, ok_bind, if_neg (by omega),
    Numeral.rsaTrans_toBig hn hLength.le, hOne, Numeral.power_one]
  rfl

/-- The bytes of a block at the places where the copy of `RSA_M` comes to
stand. -/
def blockStack (block : List UInt8) (i : Nat) : UInt8 := block.reverse.getD i 0

/-- What stands on the stack behind the limbs of the block can be chosen, so
that the text is any block. -/
theorem textBlock_blockStack {block : List UInt8} (hMax : block.length / 4 ≤ bigintMaxlen) :
    textBlock block.length (blockStack block)
        (Numeral.ofLimbs (limbsOfBytes (block.length / 4) block.reverse)).toBig = .ok block := by
  have hWhole : 4 * (block.length / 4) ≤ block.length := Nat.mul_div_le block.length 4
  have hStack : (List.range block.length).map (blockStack block) = block.reverse := by
    apply List.ext_getElem
    · simp
    · intro i h₁ h₂
      simp [blockStack, List.getD_eq_getElem?_getD, List.getElem?_eq_getElem h₂]
  have hTake : (Numeral.ofLimbs (limbsOfBytes (block.length / 4) block.reverse)).toBig.ulValue.take
      (block.length / 4) = limbsOfBytes (block.length / 4) block.reverse := by
    have hLimbs := take_encode (α := UInt32)
      (value (limbsOfBytes (block.length / 4) block.reverse)) hMax
    have hCode := encode_value (limbsOfBytes (block.length / 4) block.reverse)
    rw [length_limbsOfBytes] at hCode
    exact hLimbs.trans hCode
  have hLength : (Numeral.ofLimbs (limbsOfBytes (block.length / 4) block.reverse)).toBig.iLength32 =
      block.length / 4 := length_limbsOfBytes _ _
  rw [textBlock_eq, hLength, if_pos ⟨hMax, hWhole⟩, hTake,
    bytesOfLimbs_limbsOfBytes (by rwa [List.length_reverse]), hStack, List.take_append_drop,
    List.reverse_reverse]

/-- The fields of a key with exponent one and the largest modulus. -/
def onesFields : List UInt8 := [0, 0, 0, 1] ++ List.replicate rsaKeyByteLenMax 0xff

/-- Such a key opens a block that ends in a zero byte to itself, if the
stack holds the bytes in front of the whole words. -/
theorem openedBlock_ones {keybitLen : Nat} {low keyRest signatureRest : List UInt8}
    (hMin : 32 ≤ keybitLen) (hMax : keybitLen < 2056) (hLow : low.length + 1 = keybitLen / 8)
    (heap : Nat → UInt8) :
    openedBlock (encode 4 keybitLen ++ (onesFields ++ keyRest))
        ((0 :: low).reverse ++ signatureRest) ⟨blockStack (0 :: low).reverse, heap⟩ =
      .ok (0 :: low).reverse := by
  have hLength : (0 :: low).reverse.length = keybitLen / 8 := by
    rw [List.length_reverse, List.length_cons, hLow]
  have hInt : toInt32 keybitLen / 8 = ((keybitLen / 8 : Nat) : Int) := by
    rw [toInt32, if_pos (by omega)]
    omega
  have hBytes : 4 ≤ keybitLen / 8 := by omega
  have hField : keybitLen / 8 ≤ rsaKeyByteLenMax := Nat.le_of_lt_succ (show _ < 257 by omega)
  have hFields : (encode 4 keybitLen ++ (onesFields ++ keyRest)).drop 4 = onesFields ++ keyRest :=
    List.drop_left' (length_encode _ _)
  have hMod : (encode 4 keybitLen ++ (onesFields ++ keyRest)).drop 8 =
      (onesFields ++ keyRest).drop 4 := by
    conv_rhs => rw [← hFields, List.drop_drop]
  have hD : setUnlessNull (some (onesFields ++ keyRest)) 4 = .ok (Numeral.ofLimbs [1]).toBig := by
    have hSet := @setParameterCharOpenssl_bytes [0, 0, 0, 1]
      (List.replicate rsaKeyByteLenMax 0xff ++ keyRest) (by decide)
    rw [setUnlessNull, onesFields, List.append_assoc]
    exact hSet
  have hN : setUnlessNull (some ((onesFields ++ keyRest).drop 4)) (keybitLen / 8) =
      .ok (onesModulus hBytes).toBig := by
    have hSplit : (onesFields ++ keyRest).drop 4 = List.replicate (keybitLen / 8) 0xff ++
        (List.replicate (rsaKeyByteLenMax - keybitLen / 8) 0xff ++ keyRest) := by
      rw [← List.append_assoc, ← List.replicate_add, Nat.add_sub_cancel' hField, onesFields,
        List.append_assoc]
      rfl
    have hSet := @setParameterCharOpenssl_bytes (List.replicate (keybitLen / 8) 0xff)
      (List.replicate (rsaKeyByteLenMax - keybitLen / 8) 0xff ++ keyRest)
      (by rw [List.length_replicate]; exact (show _ ≤ 66 by omega))
    rw [List.length_replicate, List.reverse_replicate] at hSet
    rw [setUnlessNull, hSplit, hSet]
    rfl
  have hC : setParameterCharOpenssl ((0 :: low).reverse ++ signatureRest) (keybitLen / 8) =
      .ok (Numeral.ofLimbs (limbsOfBytes (keybitLen / 8 / 4) (0 :: low))).toBig := by
    have hSet := @setParameterCharOpenssl_bytes (0 :: low).reverse signatureRest
      (by rw [hLength]; exact (show _ ≤ 66 by omega))
    rwa [hLength, List.reverse_reverse] at hSet
  have hCopied := @textBlock_blockStack (0 :: low).reverse
    (by rw [hLength]; exact (show _ ≤ 66 by omega))
  rw [hLength, List.reverse_reverse] at hCopied
  have hWords : (onesModulus hBytes).length = keybitLen / 8 / 4 := length_limbsOfBytes _ _
  have hDecrypt := @pubDecrypt_exponentOne (onesModulus hBytes)
    (hWords.trans_le (show _ ≤ 64 by omega))
    (Numeral.ofLimbs (limbsOfBytes (keybitLen / 8 / 4) (0 :: low)))
    ((length_limbsOfBytes _ _).trans hWords.symm) (value_lt_onesModulus hBytes hLow) rsaInitialize
  have hDecrypted : decrypted (some (onesFields ++ keyRest)) (some ((onesFields ++ keyRest).drop 4))
      (keybitLen / 8) ((0 :: low).reverse ++ signatureRest) =
        .ok (Numeral.ofLimbs (limbsOfBytes (keybitLen / 8 / 4) (0 :: low))).toBig := by
    rw [decrypted, hD, ok_bind, hN, ok_bind, hC, ok_bind, hDecrypt]
    rfl
  rw [openedBlock, loadWord_encode _ (by omega), ok_bind, rsaBlock, hInt, if_neg (by omega), hFields,
    hMod]
  dsimp only
  rw [Int.toNat_natCast, hDecrypted, ok_bind, hCopied]

/-- A certificate that begins with a key and ends with a signature. -/
def certOf (certtype : Nat) (pubkey middle signature : List UInt8) : List UInt8 :=
  encode 4 certtype ++ (pubkey ++ (middle ++ signature))

section Layout

variable {certtype : Nat} {pubkey middle signature : List UInt8}

theorem certOf_pubkey : (certOf certtype pubkey middle signature).drop 4 =
    pubkey ++ (middle ++ signature) := List.drop_left' (length_encode _ _)

theorem certOf_middle (h : pubkey.length = sprdRsapubklen) :
    (certOf certtype pubkey middle signature).drop 268 = middle ++ signature := by
  have hDrop := congrArg (List.drop sprdRsapubklen) (@certOf_pubkey certtype pubkey middle signature)
  rwa [List.drop_drop, List.drop_left' h] at hDrop

theorem certOf_signature {offset : Nat} (h : pubkey.length = sprdRsapubklen)
    (hOffset : 268 + middle.length = offset) :
    (certOf certtype pubkey middle signature).drop offset = signature := by
  rw [← hOffset, ← List.drop_drop, certOf_middle h, List.drop_left]

theorem length_certOf (h : pubkey.length = sprdRsapubklen) :
    (certOf certtype pubkey middle signature).length = 268 + middle.length + signature.length := by
  rw [certOf, List.length_append, List.length_append, List.length_append, length_encode, h,
    sprdRsapubklen]
  omega

theorem certOf_hasKey {keybitLen : UInt32} {fields : List UInt8} {size : Nat}
    (hSize : size ≤ (certOf certtype (encode 4 keybitLen.toNat ++ fields) middle signature).length) :
    HasKey (certOf certtype (encode 4 keybitLen.toNat ++ fields) middle signature) size keybitLen := by
  refine ⟨hSize, ?_⟩
  rw [certOf_pubkey, List.append_assoc]
  exact loadWord_encode _ keybitLen.toNat_lt

theorem calSha256_certOf (h : pubkey.length = sprdRsapubklen) (hSignature : 0 < signature.length) :
    calSha256 ((certOf certtype pubkey middle signature).drop 4) sprdRsapubklen =
      .ok (sha256CsumWd pubkey) := by
  rw [calSha256_pubkey (by rw [certOf_middle h, List.length_append]; omega), pubkeyHash,
    certOf_pubkey, List.take_left' h]

theorem agree_shared {bytes : List UInt8} (h : bytes.length = hashByteLen)
    (before after : List UInt8) :
    Agree (bytes ++ before) (bytes ++ after) hashByteLen := by
  rw [← h]
  exact agree_append.mpr (List.prefix_append bytes before)

end Layout

theorem length_key {keybitLen : UInt32} {fields : List UInt8} (h : fields.length = 260) :
    (encode 4 keybitLen.toNat ++ fields).length = sprdRsapubklen := by
  rw [List.length_append, length_encode, h]
  rfl

/-- A key certificate that vouches for a key by its hash. -/
def keycertOf (keybitLen : UInt32) (hashKey : List UInt8) : List UInt8 :=
  certOf 1 (encode 4 keybitLen.toNat ++ List.replicate 260 0)
    (List.replicate 32 0 ++ (hashKey ++ List.replicate 8 0)) (List.replicate 256 0)

theorem keycertOf_hasKey (keybitLen : UInt32) {hashKey : List UInt8}
    (h : hashKey.length = hashByteLen) :
    HasKey (keycertOf keybitLen hashKey) sizeofKeycert keybitLen := by
  apply certOf_hasKey
  rw [length_certOf (length_key List.length_replicate), List.length_append, List.length_append, h,
    List.length_replicate, List.length_replicate, List.length_replicate]
  rfl

theorem keycertOf_hashKey (keybitLen : UInt32) (hashKey : List UInt8) :
    ∃ behind, (keycertOf keybitLen hashKey).drop 300 = hashKey ++ behind := by
  have hMiddle := @certOf_middle 1 (encode 4 keybitLen.toNat ++ List.replicate 260 0)
    (List.replicate 32 0 ++ (hashKey ++ List.replicate 8 0)) (List.replicate 256 0)
    (length_key List.length_replicate)
  have hDrop := congrArg (List.drop 32) hMiddle
  rw [List.drop_drop, List.append_assoc, List.drop_left' List.length_replicate,
    List.append_assoc] at hDrop
  exact ⟨_, hDrop⟩

/-- A verification that comes to `RSA_PubDec` with a key and a signature. -/
def presented (pubkey signature : List UInt8) : StatedSizes → Verification
  | .key _ => .cert (List.replicate 32 0) (List.replicate 32 0)
      (certOf 1 pubkey (List.replicate 72 0) signature)
  | .content _ => .cert (sha256CsumWd pubkey) (List.replicate 32 0)
      (certOf 0 pubkey (List.replicate 40 0) signature)
  | .primaryDebug _ m => .sbdebug false [] (certOf 2 pubkey (List.replicate 40 0) signature)
      (keycertOf m (sha256CsumWd pubkey)) certtypePrimdbg
  | .developerDebug _ m => .sbdebug false (certOf 3 pubkey (List.replicate 12 0) signature)
      (certOf 2 (List.replicate 264 0) (sha256CsumWd pubkey ++ List.replicate 8 0)
        (List.replicate 256 0))
      (keycertOf m (List.replicate 32 0)) certtypeDevelopdbg

section Presented

variable {sizes : StatedSizes} {fields signature : List UInt8}

/-- The certificates that are presented state the sizes they are built with. -/
theorem presented_states (hFields : fields.length = 260) (hSignature : signature.length = 256) :
    (presented (encode 4 sizes.keybitLen.toNat ++ fields) signature sizes).States sizes := by
  have hPubkey : (encode 4 sizes.keybitLen.toNat ++ fields).length = sprdRsapubklen :=
    length_key hFields
  have hLength (certtype : Nat) (middle : List UInt8) :=
    @length_certOf certtype _ middle signature hPubkey
  cases sizes with
  | key k =>
      refine ⟨rfl, certOf_hasKey ?_⟩
      rw [hLength, hSignature]
      rfl
  | content k =>
      refine ⟨rfl, certOf_hasKey ?_⟩
      rw [hLength, hSignature]
      rfl
  | primaryDebug k m =>
      refine ⟨rfl, certOf_hasKey ?_, keycertOf_hasKey m (length_sha256CsumWd _)⟩
      rw [hLength, hSignature]
      rfl
  | developerDebug k m =>
      refine ⟨rfl, certOf_hasKey ?_, ?_, keycertOf_hasKey m rfl⟩
      · rw [hLength, hSignature]
        rfl
      · have hKey : (List.replicate 264 (0 : UInt8)).length = sprdRsapubklen := List.length_replicate
        rw [length_certOf hKey, List.length_append, length_sha256CsumWd, List.length_replicate,
          List.length_replicate]
        exact Nat.le_refl 564

theorem presented_call (hFields : fields.length = 260) (hSignature : signature.length = 256) :
    ∃ call behind, (presented (encode 4 sizes.keybitLen.toNat ++ fields) signature sizes).call =
        .ok (some call) ∧
      call.pubkey = encode 4 sizes.keybitLen.toNat ++ (fields ++ behind) ∧
        call.signature = signature := by
  have hPubkey : (encode 4 sizes.keybitLen.toNat ++ fields).length = sprdRsapubklen :=
    length_key hFields
  have hBytes : 0 < signature.length := by omega
  have hHash := length_sha256CsumWd (encode 4 sizes.keybitLen.toNat ++ fields)
  have hBehind (certtype : Nat) (middle : List UInt8) :
      (certOf certtype (encode 4 sizes.keybitLen.toNat ++ fields) middle signature).drop 4 =
        encode 4 sizes.keybitLen.toNat ++ (fields ++ (middle ++ signature)) := by
    rw [certOf_pubkey, List.append_assoc]
  have hStates := @presented_states sizes fields signature hFields hSignature
  cases sizes with
  | key k =>
      refine ⟨⟨_, _, _⟩, List.replicate 72 0 ++ signature, (keyCall_eq_some rfl).mpr
        ⟨⟨_, calSha256_certOf hPubkey hBytes⟩, ?_, k.toNat, hStates.2.keybitLen_eq, rfl⟩,
        hBehind 1 (List.replicate 72 0), certOf_signature hPubkey rfl⟩
      rw [certOf_middle hPubkey]
      exact @agree_shared (List.replicate 32 0) rfl [] _
  | content k =>
      refine ⟨⟨_, _, _⟩, List.replicate 40 0 ++ signature, (contentCall_eq_some rfl).mpr
        ⟨_, calSha256_certOf hPubkey hBytes, ?_, ?_, k.toNat, hStates.2.keybitLen_eq, rfl⟩,
        hBehind 0 (List.replicate 40 0), certOf_signature hPubkey rfl⟩
      · rw [certOf_middle hPubkey]
        exact @agree_shared (List.replicate 32 0) rfl [] _
      · have hSame := agree_shared hHash [] []
        rwa [List.append_nil] at hSame
  | primaryDebug k m =>
      obtain ⟨behind, hKey⟩ := keycertOf_hashKey m
        (sha256CsumWd (encode 4 (StatedSizes.primaryDebug k m).keybitLen.toNat ++ fields))
      refine ⟨⟨_, _, _⟩, List.replicate 40 0 ++ signature, primaryCall_eq_some.mpr
        ⟨_, calSha256_certOf hPubkey hBytes, ?_, m.toNat, hStates.2.2.keybitLen_eq, rfl⟩,
        hBehind 2 (List.replicate 40 0), certOf_signature hPubkey rfl⟩
      have hSame := agree_shared hHash behind []
      rw [List.append_nil] at hSame
      rwa [hKey]
  | developerDebug k m =>
      refine ⟨⟨_, _, _⟩, List.replicate 12 0 ++ signature, developerCall_eq_some.mpr
        ⟨_, calSha256_certOf hPubkey hBytes, ?_, m.toNat, hStates.2.2.2.keybitLen_eq, rfl⟩,
        hBehind 3 (List.replicate 12 0), certOf_signature hPubkey rfl⟩
      have hKey : (List.replicate 264 (0 : UInt8)).length = sprdRsapubklen := List.length_replicate
      have hSame := agree_shared hHash (List.replicate 8 0 ++ List.replicate 256 0) []
      rw [List.append_nil] at hSame
      rwa [certOf_middle hKey, List.append_assoc]

end Presented

/-- A field is left from 257 bytes on, and a bignum for a size that is
negative as an `int`. -/
theorem not_keepsBounds_of_large {call : PubDecCall} {keybitLen : Nat} (hLarge : 2056 ≤ keybitLen)
    (hWord : keybitLen < 2 ^ 32) (stale : Stale) : ¬call.KeepsBounds keybitLen stale := by
  intro hKeeps
  have hMod : (toInt32 keybitLen / 8, rsaKeyByteLenMax) ∈ parameters (toInt32 keybitLen / 8) := by
    simp [parameters]
  have hLimbs := hKeeps.limbs _ hMod
  have hField := hKeeps.fields _ hMod
  simp only [copySize, bigintMaxlen] at hLimbs
  simp only [parameterBytes, rsaKeyByteLenMax] at hField
  unfold toInt32 at hLimbs hField
  split at hLimbs
  · omega
  · omega

/-- The block with the most data in so many bytes, but for the last byte. -/
def longestFront (byteLen : Nat) : List UInt8 :=
  0 :: 1 :: (List.replicate 8 0xff ++ 0 :: List.replicate (byteLen - 12) 0)

/-- The block with the shortest padding has the longest payload. -/
theorem payload_longestFront (byteLen : Nat) :
    payload (longestFront byteLen ++ [0]) = some (List.replicate (byteLen - 12) 0 ++ [0]) :=
  payload_eq_some.mpr ⟨0, 8, Nat.le_refl 8, by simp [longestFront]⟩

theorem length_longestFront {byteLen : Nat} (h : 12 ≤ byteLen) :
    (longestFront byteLen).length + 1 = byteLen := by
  simp only [longestFront, List.length_cons, List.length_append, List.length_replicate]
  omega

/-- The signature field with that block at its start. -/
def longestSignature (byteLen : Nat) : List UInt8 :=
  longestFront byteLen ++ [0] ++ List.replicate (rsaKeyByteLenMax - byteLen) 0

theorem length_longestSignature {byteLen : Nat} (h : 12 ≤ byteLen)
    (hMax : byteLen ≤ rsaKeyByteLenMax) : (longestSignature byteLen).length = 256 := by
  have hFront := length_longestFront h
  simp only [longestSignature, List.length_append, List.length_replicate, List.length_singleton]
  rw [rsaKeyByteLenMax] at *
  omega

/-- The data of the block leaves a buffer that is shorter by more than
eleven bytes. -/
theorem not_keepsBounds_of_room {call : PubDecCall} {keybitLen : Nat} {behind : List UInt8}
    (hMax : keybitLen < 2056) (hRoom : call.room + 11 < keybitLen / 8)
    (hKey : call.pubkey = encode 4 keybitLen ++ (onesFields ++ behind))
    (hSignature : call.signature = longestSignature (keybitLen / 8)) :
    ∃ stale, ¬call.KeepsBounds keybitLen stale := by
  have hFront := length_longestFront (show 12 ≤ keybitLen / 8 by omega)
  have hOpened := @openedBlock_ones keybitLen (longestFront (keybitLen / 8)).reverse behind
    (List.replicate (rsaKeyByteLenMax - keybitLen / 8) 0) (by omega) hMax
    (by rwa [List.length_reverse]) (fun _ => 0)
  rw [List.reverse_cons, List.reverse_reverse] at hOpened
  refine ⟨⟨blockStack (longestFront (keybitLen / 8) ++ [0]), fun _ => 0⟩, fun hKeeps => ?_⟩
  have hFits := hKeeps.payload _ _ (by rw [hKey, hSignature]; exact hOpened)
    (payload_longestFront (keybitLen / 8))
  rw [List.length_append, List.length_replicate, List.length_singleton] at hFits
  omega

theorem length_onesFields : onesFields.length = 260 := by
  rw [onesFields, List.length_append, List.length_replicate]
  rfl

/-- A verification of a certificate with a key of this size, exponent one
and the largest modulus. -/
def verificationOf (sizes : StatedSizes) (signature : List UInt8) : Verification :=
  presented (encode 4 sizes.keybitLen.toNat ++ onesFields) signature sizes

/-- A key size of 2056 bits or more takes the call out of its arrays. -/
theorem verificationOf_large {sizes : StatedSizes} (h : 2056 ≤ sizes.keybitLen.toNat) :
    (verificationOf sizes (List.replicate 256 0)).States sizes ∧
      ¬(verificationOf sizes (List.replicate 256 0)).StaysInBounds := by
  have hZeros : (List.replicate 256 (0 : UInt8)).length = 256 := List.length_replicate
  have hStates := @presented_states sizes _ _ length_onesFields hZeros
  obtain ⟨call, behind, hCall, -, -⟩ := @presented_call sizes _ _ length_onesFields hZeros
  refine ⟨hStates, fun hStays => ?_⟩
  have hKeeps := hStays call _ ⟨fun _ => 0, fun _ => 0⟩ hCall (hStates.call_eq hCall).1
  exact not_keepsBounds_of_large h sizes.keybitLen.toNat_lt _ hKeeps

/-- A key that is longer than the room allows takes the copy out of the
room. -/
theorem verificationOf_longest {sizes : StatedSizes} (h : sizes.keybitLen.toNat < 2056)
    (hRoom : sizes.roomBitLen.toNat / 8 + 11 < sizes.keybitLen.toNat / 8) :
    (verificationOf sizes (longestSignature (sizes.keybitLen.toNat / 8))).States sizes ∧
      ¬(verificationOf sizes
        (longestSignature (sizes.keybitLen.toNat / 8))).StaysInBounds := by
  have hField : sizes.keybitLen.toNat / 8 ≤ rsaKeyByteLenMax :=
    Nat.le_of_lt_succ (show _ < 257 by omega)
  have hBytes := length_longestSignature (show 12 ≤ sizes.keybitLen.toNat / 8 by omega) hField
  have hStates := @presented_states sizes _ _ length_onesFields hBytes
  obtain ⟨call, behind, hCall, hKey, hSignature⟩ :=
    @presented_call sizes _ _ length_onesFields hBytes
  obtain ⟨hLoad, hCallRoom⟩ := hStates.call_eq hCall
  obtain ⟨stale, hLeft⟩ := not_keepsBounds_of_room h (by rwa [hCallRoom]) hKey hSignature
  exact ⟨hStates, fun hStays => hLeft (hStays call _ stale hCall hLoad)⟩

/-- Certificates of the kind with these sizes are all verified in bounds if
and only if the key has at most 256 bytes and at most eleven bytes more than
the buffer. -/
theorem statedSizes_safe_iff (sizes : StatedSizes) :
    (∀ v : Verification, v.States sizes → v.StaysInBounds) ↔ sizes.Fit := by
  constructor
  · intro hSafe
    by_contra hFit
    by_cases hLarge : 2056 ≤ sizes.keybitLen.toNat
    · obtain ⟨hStates, hLeft⟩ := verificationOf_large hLarge
      exact hLeft (hSafe _ hStates)
    · have hRoom : sizes.roomBitLen.toNat / 8 + 11 < sizes.keybitLen.toNat / 8 := by
        unfold StatedSizes.Fit at hFit
        omega
      obtain ⟨hStates, hLeft⟩ := verificationOf_longest (by omega) hRoom
      exact hLeft (hSafe _ hStates)
  · exact fun hFit v hStates => staysInBounds_of_fit hStates hFit

/-- A key certificate for a key of 4096 bits, and a primary debug
certificate for one of 1024 bits beside a key certificate for one of 512. -/
theorem largeKeys_outOfBounds :
    let largeKey := verificationOf (.key 4096) (List.replicate 256 0)
    let largeDebugKey := verificationOf (.primaryDebug 1024 512) (longestSignature 128)
    (largeKey.States (.key 4096) ∧ ¬largeKey.StaysInBounds) ∧
      largeDebugKey.States (.primaryDebug 1024 512) ∧ ¬largeDebugKey.StaysInBounds := by
  constructor
  · exact @verificationOf_large (.key 4096) (by decide)
  · exact @verificationOf_longest (.primaryDebug 1024 512) (by decide) (by decide)

end SignImage
