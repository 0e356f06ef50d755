import Gtexswifi.Efuse.SecureBoot
import Mathlib.Data.List.Flatten
import Mathlib.Data.List.TakeWhile

/-! What fuses that start out blank tell of the hash that was stored in
them. Bits are set and never cleared. -/
namespace Efuse

open Transition (run)

/-- The words in the blocks. -/
abbrev Device := Nat → UInt32

/-- The bits that a `write` of so many bytes of a word sets. -/
def writtenBits (val : UInt32) (len : Int) : UInt32 :=
  UInt32.ofNat (val.toNat % 2 ^ (8 * len.toNat))

/-- The device behind an access, or `none` if the access reads something
else than it holds. -/
def access (device : Device) : Event → Option Device
  | .wrote blk val len => some (Function.update device blk (device blk ||| writtenBits val len))
  | .readBack blk buf => if buf = wordBytes (device blk) then some device else none

/-- The blocks of the hash have no bits set. -/
def Blank (source : Source) (device : Device) : Prop :=
  ∀ k < source.hashBlockLen, device (source.hashBlockStart + k) = 0

/-- Forty hexadecimal digits. -/
def IsHash (hash : Nat → UInt8) : Prop := ∀ i < 40, Numerals.digitValue (hash i) < 16

/-- The number in a group of eight digits. -/
def group (hash : Nat → UInt8) (k : Nat) : Nat :=
  Numerals.valueOf 16 ((List.range 8).map fun j => hash (8 * k + j))

/-- `efuse_hash_write` of a whole hash succeeds, with the accesses that the
device answers. -/
def Stores (source : Source) (longBits : Nat) (hash : Nat → UInt8) (device device' : Device) :
    Prop :=
  ∃ s count driver w, 40 ≤ count ∧
    0 < (efuseHashWrite source longBits s (some hash) count driver).ret ∧
    (efuseHashWrite source longBits s (some hash) count driver).hashWrite = some w ∧
    run access device w.events = some device'

/-- What `efuse_hash_read` copies, if it can read all blocks. -/
def hashReadText (source : Source) (count : Int) (driver : Nat → ReadOutcome) :
    Option (List UInt8) :=
  (readBlocks driver (hashBlocks source)).map fun values =>
    values.flatten.take (min count (source.hashBlockLen * 8)).toNat

/-- Every block of the device is read as it is. -/
def reads (device : Device) (blk : Nat) : ReadOutcome := .read (wordBytes (device blk))

theorem wordBytes_injective {a b : UInt32} (h : wordBytes a = wordBytes b) : a = b := by
  simp only [wordBytes, List.cons.injEq, and_true, ← UInt8.toNat_inj, UInt8.toNat_ofNat'] at h
  have ha := a.toNat_lt
  have hb := b.toNat_lt
  apply UInt32.toNat_inj.mp
  omega

theorem readBuf_wordBytes (val : UInt32) : readBuf (wordBytes val) = wordBytes val := rfl

theorem length_hexWord_wordBytes (val : UInt32) : (hexWord (wordBytes val)).length = 8 := rfl

theorem digits_lt {hash : Nat → UInt8} (h : IsHash hash) {k : Nat} (hk : k < 5) :
    ∀ c ∈ (List.range 8).map fun j => hash (8 * k + j), Numerals.digitValue c < 16 := by
  intro c hMem
  obtain ⟨j, hj, rfl⟩ := List.mem_map.mp hMem
  have hLow := List.mem_range.mp hj
  exact h (8 * k + j) (by omega)

/-- The mask takes the top bit off the number of a group. -/
theorem hashWord_toNat {hash : Nat → UInt8} (h : IsHash hash) {longBits : Nat}
    (hBits : 32 ≤ longBits) {k : Nat} (hk : k < 5) :
    (hashWord longBits hash (8 * k)).toNat = group hash k % 2 ^ 31 := by
  have hDigits := digits_lt h hk
  have hNoZero : ((List.range 8).map fun j => hash (8 * k + j)).takeWhile (· ≠ 0) =
      (List.range 8).map fun j => hash (8 * k + j) := by
    refine List.takeWhile_eq_self_iff.mpr fun c hMem => decide_eq_true ?_
    rintro rfl
    exact absurd (hDigits 0 hMem) (by decide)
  have hSmall : group hash k < 16 ^ 8 := by
    simpa [group] using Numerals.valueOf_lt (by decide) hDigits
  have hLong : (2 : Nat) ^ 32 ≤ 2 ^ longBits := Nat.pow_le_pow_right (by decide) hBits
  have hValue : Numerals.strtoul longBits 16 ((List.range 8).map fun j => hash (8 * k + j)) =
      group hash k := by
    have hFirst : Numerals.digitValue (hash (8 * k)) < 36 :=
      (h (8 * k) (by omega)).trans (by decide)
    have hText : (List.range 8).map (fun j => hash (8 * k + j)) =
        hash (8 * k) :: (List.range' 1 7).map fun j => hash (8 * k + j) := rfl
    have hRead : Numerals.scan 16 0 (if (16 : Nat) = 16 then
        Numerals.dropHexMark ((List.range 8).map fun j => hash (8 * k + j))
        else (List.range 8).map fun j => hash (8 * k + j)) = group hash k := by
      rw [if_pos rfl, Numerals.scan_hexDigits hDigits, group]
    rw [hText] at hRead ⊢
    rw [Numerals.strtoul_of_digit hFirst _ (by rw [hRead]; omega), hRead]
  have hMask : (0x7fffffff : UInt32).toNat = 2 ^ 31 - 1 := rfl
  have hFits : group hash k % 2 ^ 32 = group hash k := Nat.mod_eq_of_lt (by omega)
  rw [hashWord, hNoZero, hValue, UInt32.toNat_and, hMask, Nat.and_two_pow_sub_one_eq_mod,
    UInt32.toNat_ofNat', hFits]

/-- Neither the whole marker nor a part of it reaches the low bits. -/
theorem marked_low (val : UInt32) (len : Int) :
    (val ||| writtenBits hashBit len).toNat % 2 ^ 31 = val.toNat % 2 ^ 31 := by
  have hMarker : (writtenBits hashBit len).toNat % 2 ^ 31 = 0 := by
    have hBit : hashBit.toNat = 2 ^ 31 := rfl
    rw [writtenBits, hBit, UInt32.toNat_ofNat']
    rcases Nat.lt_or_ge 31 (8 * len.toNat) with hAll | hPart
    · rw [Nat.mod_eq_of_lt (Nat.pow_lt_pow_right (by decide) hAll)]
      rfl
    · rw [Nat.mod_eq_zero_of_dvd (Nat.pow_dvd_pow 2 hPart)]
      rfl
  rw [UInt32.toNat_or, Nat.or_mod_two_pow, hMarker, Nat.or_zero]

/-- Markers change the top bit of their block, and no other block. -/
theorem markers_device {j : Nat} {markers : List Event} {device device' : Device}
    (hMarkers : ∀ event ∈ markers, ∃ len, event = .wrote j hashBit len)
    (hRun : run access device markers = some device') :
    (device' j).toNat % 2 ^ 31 = (device j).toNat % 2 ^ 31 ∧
      ∀ blk, blk ≠ j → device' blk = device blk := by
  induction markers generalizing device with
  | nil =>
      obtain rfl := Option.some.inj hRun
      exact ⟨rfl, fun _ _ => rfl⟩
  | cons event markers ih =>
      obtain ⟨⟨len, rfl⟩, hRest⟩ := List.forall_mem_cons.mp hMarkers
      obtain ⟨hLow, hOther⟩ := ih hRest hRun
      constructor
      · rw [hLow, Function.update_self, marked_low]
      · intro blk hBlk
        rw [hOther blk hBlk, Function.update_of_ne hBlk]

/-- A pass that succeeds leaves its value in the block, but for the top bit. -/
theorem hashBlock_device {j : Nat} {value : UInt32} {driver : BlockOutcome}
    {device device' : Device} (hOk : ¬(hashBlock j value driver).1 < 0)
    (hRun : run access device (hashBlock j value driver).2 = some device') :
    (device' j).toNat % 2 ^ 31 = value.toNat % 2 ^ 31 ∧
      ∀ blk, blk ≠ j → device' blk = device blk := by
  obtain ⟨len, locked, -, hEvents, hLocked⟩ := (hashBlock_spec j value driver).2 hOk
  rw [hEvents, Transition.run_append] at hRun
  simp only [Transition.run_cons, Transition.run_nil, access, Option.bind_some,
    Function.update_self] at hRun
  split at hRun
  · next hSame =>
      obtain ⟨hLow, hOther⟩ := markers_device hLocked hRun
      constructor
      · rw [hLow, Function.update_self, ← wordBytes_injective hSame]
      · intro blk hBlk
        rw [hOther blk hBlk, Function.update_of_ne hBlk]
  · cases hRun

/-- A loop that ends with all of its passes leaves the words of the hash in
the blocks, but for the top bits. -/
theorem hashLoop_device {source : Source} {longBits : Nat} {hash : Nat → UInt8} {count : Int}
    {driver : Nat → BlockOutcome} {passes k : Nat} {len : Int} {device device' : Device}
    (hOk : (hashLoop source longBits hash count driver passes k len).2.1 = true)
    (hRun : run access device (hashLoop source longBits hash count driver passes k len).2.2 =
      some device') :
    (∀ i < k, device' (source.hashBlockStart + i) = device (source.hashBlockStart + i)) ∧
      ∀ i, k ≤ i → i < k + passes → (8 * i : Int) < count →
        (device' (source.hashBlockStart + i)).toNat % 2 ^ 31 =
          (hashWord longBits hash (8 * i)).toNat % 2 ^ 31 := by
  induction passes generalizing k len device with
  | zero =>
      obtain rfl := Option.some.inj hRun
      exact ⟨fun _ _ => rfl, fun i hLow hHigh => absurd hHigh (Nat.not_lt.mpr hLow)⟩
  | succ passes ih =>
      rw [hashLoop] at hOk hRun
      by_cases hCount : (8 * k : Int) < count
      · rw [if_pos hCount] at hOk hRun
        dsimp only at hOk hRun
        by_cases hFails : (hashBlock (source.hashBlockStart + k) (hashWord longBits hash (8 * k))
            (driver k)).1 < 0
        · rw [if_pos hFails] at hOk
          exact absurd hOk Bool.false_ne_true
        · rw [if_neg hFails] at hOk hRun
          dsimp only at hOk hRun
          rw [Transition.run_append, Option.bind_eq_some_iff] at hRun
          obtain ⟨middle, hBlock, hRest⟩ := hRun
          obtain ⟨hLow, hOther⟩ := hashBlock_device hFails hBlock
          have hOthers : ∀ i, i ≠ k → middle (source.hashBlockStart + i) =
              device (source.hashBlockStart + i) := fun i hi => hOther _ (by omega)
          obtain ⟨hBefore, hAfter⟩ := ih hOk hRest
          constructor
          · intro i hi
            rw [hBefore i (by omega), hOthers i (by omega)]
          · intro i hi hHigh hCovered
            rcases Nat.eq_or_lt_of_le hi with rfl | hLater
            · rw [hBefore k (by omega), hLow]
            · exact hAfter i hLater (by omega) hCovered
      · rw [if_neg hCount] at hRun
        obtain rfl := Option.some.inj hRun
        exact ⟨fun _ _ => rfl, fun i hi _ hCovered => absurd hCovered (by omega)⟩

/-- A loop that does not end with all of its passes gives a negative result. -/
theorem hashLoop_fails {source : Source} {longBits : Nat} {hash : Nat → UInt8} {count : Int}
    {driver : Nat → BlockOutcome} {passes k : Nat} {len : Int}
    (h : (hashLoop source longBits hash count driver passes k len).2.1 = false) :
    (hashLoop source longBits hash count driver passes k len).1 < 0 := by
  induction passes generalizing k len with
  | zero => cases h
  | succ passes ih =>
      rw [hashLoop] at h ⊢
      split at h
      · next hCount =>
          rw [if_pos hCount]
          dsimp only at h ⊢
          split at h
          · next hFails =>
              rw [if_pos hFails]
              exact hFails
          · next hOk =>
              rw [if_neg hOk]
              exact ih h
      · cases h

/-- A stored hash can be told from its blocks, but for the top bits. -/
theorem Stores.group_eq {source : Source} {longBits : Nat} {hash : Nat → UInt8}
    {device device' : Device} (h : Stores source longBits hash device device')
    (hHash : IsHash hash) (hBits : 32 ≤ longBits) {k : Nat} (hk : k < 5) :
    (device' (source.hashBlockStart + k)).toNat % 2 ^ 31 = group hash k % 2 ^ 31 := by
  obtain ⟨s, count, driver, w, hCount, hRet, hWrite, hRun⟩ := h
  have hLen := hashBlockLen_eq source
  unfold efuseHashWrite at hRet hWrite
  dsimp only at hRet hWrite
  rw [if_neg (by omega)] at hRet hWrite
  obtain rfl := Option.some.inj hWrite
  have hOk : (hashLoop source longBits hash (min count (source.hashBlockLen * 8)) driver
      source.hashBlockLen 0 0).2.1 = true := by
    refine Bool.eq_true_of_not_eq_false fun hFalse => ?_
    have hNegative := hashLoop_fails hFalse
    dsimp only at hRet
    omega
  have hWords := (hashLoop_device hOk hRun).2 k
    (Nat.zero_le k) (by omega) (by omega)
  rw [hWords, hashWord_toNat hHash hBits hk, Nat.mod_mod]

/-- Reading the blocks of the device gives the texts of their words. -/
theorem readBlocks_reads (device : Device) (blks : List Nat) :
    readBlocks (reads device) blks =
      some (blks.map fun blk => hexWord (wordBytes (device blk))) := by
  induction blks with
  | nil => rfl
  | cons blk blks ih =>
      rw [readBlocks, ih]
      rfl

/-- The text has eight digits for each block. -/
theorem hashReadText_reads (source : Source) {count : Int} (hCount : 40 ≤ count)
    (device : Device) : hashReadText source count (reads device) =
      some ((hashBlocks source).map fun blk => hexWord (wordBytes (device blk))).flatten := by
  have hLen := hashBlockLen_eq source
  rw [hashReadText, readBlocks_reads, Option.map_some, List.take_of_length_le]
  simp [hashBlocks, Function.comp_def, length_hexWord_wordBytes]
  omega

/-- Devices that are read alike hold the same words. -/
theorem device_eq_of_text {source : Source} {count : Int} (hCount : 40 ≤ count)
    {first second : Device}
    (h : hashReadText source count (reads first) = hashReadText source count (reads second))
    {k : Nat} (hk : k < 5) :
    first (source.hashBlockStart + k) = second (source.hashBlockStart + k) := by
  rw [hashReadText_reads source hCount, hashReadText_reads source hCount, Option.some.injEq] at h
  have hTexts := List.eq_iff_flatten_eq.mpr ⟨h, by
    simp [Function.comp_def, length_hexWord_wordBytes]⟩
  have hMem : source.hashBlockStart + k ∈ hashBlocks source := by
    have hLen := hashBlockLen_eq source
    rw [hashBlocks, List.mem_range'_1]
    omega
  exact wordBytes_injective (hexWord_injective (List.map_inj_left.mp hTexts _ hMem))

/-- What a device with blank blocks gives in each pass. -/
def workingDriver (longBits : Nat) (hash : Nat → UInt8) (k : Nat) : BlockOutcome :=
  ⟨.write 4, .read (wordBytes (hashWord longBits hash (8 * k))), .write 4⟩

/-- The blocks from a pass on, with the hash and its markers. -/
def marked (source : Source) (longBits : Nat) (hash : Nat → UInt8) (device : Device) (k : Nat) :
    Nat → Device
  | 0 => device
  | passes + 1 =>
      Function.update (marked source longBits hash device k passes)
        (source.hashBlockStart + (k + passes))
        (hashWord longBits hash (8 * (k + passes)) ||| hashBit)

/-- One pass stores a word, with its bit, and goes on with the next block. -/
theorem marked_succ (source : Source) (longBits : Nat) (hash : Nat → UInt8) (device : Device)
    (k passes : Nat) : marked source longBits hash device k (passes + 1) =
      marked source longBits hash (Function.update device (source.hashBlockStart + k)
        (hashWord longBits hash (8 * k) ||| hashBit)) (k + 1) passes := by
  induction passes with
  | zero => rfl
  | succ passes ih =>
      rw [marked, ih, marked, Nat.add_right_comm k 1 passes]
      rfl

theorem writtenBits_all (val : UInt32) : writtenBits val 4 = val := by
  have hVal := val.toNat_lt
  apply UInt32.toNat_inj.mp
  rw [writtenBits, UInt32.toNat_ofNat']
  exact (Nat.mod_eq_of_lt (Nat.mod_lt _ (by decide))).trans (Nat.mod_eq_of_lt hVal)

/-- With a driver that works, the block is written, read back and locked. -/
theorem hashBlock_working (j : Nat) (value : UInt32) :
    hashBlock j value ⟨.write 4, .read (wordBytes value), .write 4⟩ =
      (4, [.wrote j value 4, .readBack j (wordBytes value), .wrote j hashBit 4]) := by
  have hRead : wordBytes value ≠ [] := List.cons_ne_nil _ _
  rw [hashBlock_eq]
  simp [efuseWrite, efuseRead, readBuf_wordBytes, hRead]

/-- Every hash is stored in blank blocks if all calls of the driver succeed. -/
theorem hashLoop_working (source : Source) (longBits : Nat) (hash : Nat → UInt8)
    {passes k : Nat} (hPasses : k + passes ≤ 5) (len : Int) (device : Device)
    (hBlank : ∀ i, k ≤ i → i < k + passes → device (source.hashBlockStart + i) = 0) :
    (hashLoop source longBits hash 40 (workingDriver longBits hash) passes k len).1 =
        len + 4 * passes ∧
      run access device
        (hashLoop source longBits hash 40 (workingDriver longBits hash) passes k len).2.2 =
        some (marked source longBits hash device k passes) := by
  induction passes generalizing k len device with
  | zero => exact ⟨by rw [hashLoop]; omega, rfl⟩
  | succ passes ih =>
      have hCount : (8 * k : Int) < 40 := by omega
      have hZero := hBlank k le_rfl (by omega)
      have hNext : k + 1 + passes ≤ 5 := by omega
      obtain ⟨hRet, hRun⟩ := ih hNext (len + 4)
        (Function.update device (source.hashBlockStart + k)
          (hashWord longBits hash (8 * k) ||| hashBit)) (fun i hi hHigh => by
            rw [Function.update_of_ne (by omega), hBlank i (by omega) (by omega)])
      rw [hashLoop, if_pos hCount, workingDriver, hashBlock_working]
      dsimp only
      rw [if_neg (by decide)]
      dsimp only
      constructor
      · rw [hRet]
        push_cast
        ring
      · rw [marked_succ, ← hRun, Transition.run_append]
        simp [Transition.run_cons, access, hZero, writtenBits_all]

/-- On blank fuses a driver that works stores each word of the hash with the
bit set. -/
theorem stores_working (source : Source) (longBits : Nat) (hash : Nat → UInt8) {device : Device}
    (hBlank : Blank source device) :
    Stores source longBits hash device (marked source longBits hash device 0 5) := by
  have hLen := hashBlockLen_eq source
  have hPasses : 0 + 5 ≤ 5 := by decide
  obtain ⟨hRet, hRun⟩ := hashLoop_working source longBits hash hPasses 0 device
    (fun i _ hi => hBlank i (by omega))
  have hLoop : hashLoop source longBits hash (min 40 (source.hashBlockLen * 8))
      (workingDriver longBits hash) source.hashBlockLen 0 0 =
        hashLoop source longBits hash 40 (workingDriver longBits hash) 5 0 0 := by
    rw [hLen]
    rfl
  rw [← hLoop] at hRet hRun
  have hPositive : (0 : Int) < 0 + 4 * (5 : Nat) := by decide
  rw [← hRet] at hPositive
  exact ⟨State.init, 40, workingDriver longBits hash, _, le_rfl, hPositive, rfl, hRun⟩

/-- Blank fuses. -/
def blankDevice : Device := fun _ => 0

theorem marked_congr {source : Source} {longBits : Nat} {first second : Nat → UInt8}
    {device : Device} {passes : Nat}
    (h : ∀ k < passes, hashWord longBits first (8 * k) = hashWord longBits second (8 * k)) :
    marked source longBits first device 0 passes =
      marked source longBits second device 0 passes := by
  induction passes with
  | zero => rfl
  | succ passes ih =>
      rw [marked, marked, ih fun k hk => h k (Nat.lt_succ_of_lt hk), Nat.zero_add,
        h passes (Nat.lt_succ_self passes)]

/-- Two hashes that differ in the low 31 bits of some group are read as
different texts, if the fuses are blank or not before they are stored. -/
theorem stored_hashes_differ (source : Source) {longBits : Nat} (hBits : 32 ≤ longBits)
    {first second : Nat → UInt8} (hFirst : IsHash first) (hSecond : IsHash second)
    (hDiffer : ∃ k < 5, group first k % 2 ^ 31 ≠ group second k % 2 ^ 31)
    {before before' device device' : Device} (hStores : Stores source longBits first before device)
    (hStores' : Stores source longBits second before' device') {count : Int}
    (hCount : 40 ≤ count) :
    hashReadText source count (reads device) ≠ hashReadText source count (reads device') := by
  intro hSame
  obtain ⟨k, hk, hGroups⟩ := hDiffer
  apply hGroups
  rw [← hStores.group_eq hFirst hBits hk, ← hStores'.group_eq hSecond hBits hk,
    device_eq_of_text hCount hSame hk]

/-- Forty times one digit. -/
def sameDigits (digit : UInt8) (_ : Nat) : UInt8 := digit

theorem sameDigits_isHash {digit : UInt8} (h : Numerals.digitValue digit < 16) :
    IsHash (sameDigits digit) := fun _ _ => h

/-- Hashes of zeros and of ones are told apart. -/
theorem stored_hashes_differ_digits :
    hashReadText .sprd 40 (reads (marked .sprd 32 (sameDigits 0x30) blankDevice 0 5)) ≠
      hashReadText .sprd 40 (reads (marked .sprd 32 (sameDigits 0x31) blankDevice 0 5)) :=
  stored_hashes_differ .sprd le_rfl (sameDigits_isHash (by decide)) (sameDigits_isHash (by decide))
    ⟨0, by decide, by decide +kernel⟩ (stores_working .sprd 32 _ fun _ _ => rfl)
    (stores_working .sprd 32 _ fun _ _ => rfl) le_rfl

/-- `80000000` five times. -/
def topBits (i : Nat) : UInt8 := if i % 8 = 0 then 0x38 else 0x30

/-- The top bits of the groups are not stored. -/
theorem topBits_lost :
    ¬∀ (source : Source) (longBits : Nat), 32 ≤ longBits → ∀ first second : Nat → UInt8,
      IsHash first → IsHash second → (∃ k < 5, group first k ≠ group second k) →
      ∀ blank blank' device device' : Device, Blank source blank → Blank source blank' →
      Stores source longBits first blank device → Stores source longBits second blank' device' →
      ∀ count : Int, 40 ≤ count →
        hashReadText source count (reads device) ≠ hashReadText source count (reads device') := by
  intro hClaim
  have hTop : IsHash topBits := by
    intro i _
    unfold topBits
    split <;> decide
  have hZeros : IsHash (sameDigits 0x30) := sameDigits_isHash (by decide)
  refine hClaim .sprd 32 le_rfl (sameDigits 0x30) topBits hZeros hTop
    ⟨0, by decide, by decide +kernel⟩ blankDevice blankDevice _ _ (fun _ _ => rfl) (fun _ _ => rfl)
    (stores_working .sprd 32 _ fun _ _ => rfl) (stores_working .sprd 32 _ fun _ _ => rfl) 40 le_rfl
    (congrArg (fun device => hashReadText .sprd 40 (reads device)) (marked_congr ?_))
  decide +kernel

end Efuse
