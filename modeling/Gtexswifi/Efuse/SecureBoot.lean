import Gtexswifi.Efuse.EfuseHw
import Gtexswifi.Library.Transition
import Mathlib.Data.List.Basic

/-! The secure-boot bit is written over the key hash of the most recent
`efuse_hash_write`. All of the hash is in the fuses when the count covered
it. -/
namespace Efuse

theorem hex2_injective {a b : UInt8} (h : hex2 a = hex2 b) : a = b := by
  have ha : a.toNat < 256 := a.toNat_lt
  have hb : b.toNat < 256 := b.toNat_lt
  obtain ⟨hHigh, hTail⟩ := List.cons.inj h
  have hLow := List.singleton_inj.mp hTail
  have hDigit {m n : Nat} (hm : m < 16) (hn : n < 16)
      (hEqual : Numerals.digit m = Numerals.digit n) : m = n := by
    have hValue := congrArg Numerals.digitValue hEqual
    rwa [Numerals.digitValue_digit (by omega), Numerals.digitValue_digit (by omega)] at hValue
  have hDiv := hDigit (by omega) (by omega) hHigh
  have hMod := hDigit (by omega) (by omega) hLow
  apply UInt8.toNat_inj.mp
  omega

theorem flatMap_hex2_injective {as bs : List UInt8} (h : as.flatMap hex2 = bs.flatMap hex2) :
    as = bs := by
  induction as generalizing bs with
  | nil =>
      cases bs with
      | nil => rfl
      | cons b bs => cases h
  | cons a as ih =>
      cases bs with
      | nil => cases h
      | cons b bs =>
          rw [List.flatMap_cons, List.flatMap_cons] at h
          obtain ⟨hHead, hTail⟩ := List.append_inj h rfl
          rw [hex2_injective hHead, ih hTail]

/-- Texts of words are compared as the words. -/
theorem hexWord_injective {as bs : List UInt8} (h : hexWord as = hexWord bs) : as = bs :=
  List.reverse_injective (flatMap_hex2_injective h)

/-- Block `k` of the hash has been programmed, and read back with the value
it should have. -/
def HashWrite.Verified (source : Source) (longBits : Nat) (w : HashWrite) (k : Nat) : Prop :=
  ∃ len, 0 < len ∧
    [Event.wrote (source.hashBlockStart + k) (hashWord longBits w.hash (8 * k)) len,
      Event.readBack (source.hashBlockStart + k)
        (wordBytes (hashWord longBits w.hash (8 * k)))].Sublist w.events

/-- All blocks from `HASH_BLOCK_START` to `HASH_BLOCK_END`. -/
def HashWrite.Complete (source : Source) (longBits : Nat) (w : HashWrite) : Prop :=
  ∀ k < source.hashBlockLen, w.Verified source longBits k

/-- A write that is not reported as failed has written to the block. -/
theorem efuseWrite_pos {blk : Nat} {val : UInt32} {driver : WriteOutcome}
    (h : ¬(efuseWrite blk val driver).1 ≤ 0) :
    ∃ len, 0 < len ∧ efuseWrite blk val driver = (len, [.wrote blk val len]) := by
  cases driver with
  | write len =>
      by_cases hLen : len ≤ 0
      · exact absurd (show (efuseWrite blk val (.write len)).1 ≤ 0 by simp [efuseWrite, hLen]) h
      · exact ⟨len, by omega, by simp [efuseWrite, hLen]⟩
  | _ => exact absurd (by simp [efuseWrite]) h

theorem efuseWrite_events {blk : Nat} {val : UInt32} {driver : WriteOutcome} {event : Event}
    (h : event ∈ (efuseWrite blk val driver).2) : ∃ len, event = .wrote blk val len := by
  cases driver with
  | write len => exact ⟨len, List.mem_singleton.mp h⟩
  | _ => cases h

theorem efuseRead_events {blk : Nat} {driver : ReadOutcome} {event : Event}
    (h : event ∈ (efuseRead blk driver).2.2) : ∃ buf, event = .readBack blk buf := by
  cases driver with
  | read data =>
      unfold efuseRead at h
      dsimp only at h
      split at h
      · cases h
      · exact ⟨_, List.mem_singleton.mp h⟩
  | _ => cases h

/-- A read that succeeds returns the text of the word that it has read. -/
theorem efuseRead_ok {blk : Nat} {driver : ReadOutcome} (h : ¬(efuseRead blk driver).1 < 0) :
    ∃ buf, efuseRead blk driver = (1, hexWord buf, [.readBack blk buf]) := by
  cases driver with
  | read data =>
      by_cases hData : data = []
      · exact absurd (show (efuseRead blk (.read data)).1 < 0 by simp [efuseRead, hData]) h
      · exact ⟨readBuf data, by simp [efuseRead, hData]⟩
  | _ => exact absurd (by simp [efuseRead]) h

/-- The block that an access is to. -/
def Event.block : Event → Nat
  | .wrote blk _ _ => blk
  | .readBack blk _ => blk

/-- The passes of the loop over one block, branch by branch: the write, the
read, the comparison, and the bit that locks the block. -/
theorem hashBlock_eq (j : Nat) (value : UInt32) (driver : BlockOutcome) :
    hashBlock j value driver =
      if (efuseWrite j value driver.program).1 ≤ 0 then
        (-2, (efuseWrite j value driver.program).2)
      else if (efuseRead j driver.verify).1 < 0 then
        (-3, (efuseWrite j value driver.program).2 ++ (efuseRead j driver.verify).2.2)
      else if hexWord (wordBytes value) ≠ (efuseRead j driver.verify).2.1 then
        (-4, (efuseWrite j value driver.program).2 ++ (efuseRead j driver.verify).2.2)
      else if (efuseWrite j hashBit driver.lock).1 < 0 then
        (-5, (efuseWrite j value driver.program).2 ++ (efuseRead j driver.verify).2.2 ++
          (efuseWrite j hashBit driver.lock).2)
      else
        ((efuseWrite j value driver.program).1, (efuseWrite j value driver.program).2 ++
          (efuseRead j driver.verify).2.2 ++ (efuseWrite j hashBit driver.lock).2) := rfl

/-- What a pass can do: it accesses its block only, and if it succeeds the
value has been written and read back, and nothing but the marker is written
behind it. -/
theorem hashBlock_spec (j : Nat) (value : UInt32) (driver : BlockOutcome) :
    (∀ event ∈ (hashBlock j value driver).2, event.block = j) ∧
      (¬(hashBlock j value driver).1 < 0 → ∃ len locked, 0 < len ∧
        (hashBlock j value driver).2 =
          [.wrote j value len, .readBack j (wordBytes value)] ++ locked ∧
        ∀ event ∈ locked, ∃ len, event = .wrote j hashBit len) := by
  have hWrote {val : UInt32} {outcome : WriteOutcome} :
      ∀ event ∈ (efuseWrite j val outcome).2, event.block = j := by
    intro event hEvent
    obtain ⟨len, rfl⟩ := efuseWrite_events hEvent
    rfl
  have hRead {outcome : ReadOutcome} : ∀ event ∈ (efuseRead j outcome).2.2, event.block = j := by
    intro event hEvent
    obtain ⟨buf, rfl⟩ := efuseRead_events hEvent
    rfl
  have hBoth : ∀ event ∈ (efuseWrite j value driver.program).2 ++
      (efuseRead j driver.verify).2.2, event.block = j := by
    intro event hEvent
    exact (List.mem_append.mp hEvent).elim (hWrote event) (hRead event)
  have hAll : ∀ event ∈ (efuseWrite j value driver.program).2 ++
      (efuseRead j driver.verify).2.2 ++ (efuseWrite j hashBit driver.lock).2,
        event.block = j := by
    intro event hEvent
    exact (List.mem_append.mp hEvent).elim (hBoth event) (hWrote event)
  rw [hashBlock_eq]
  by_cases hProgram : (efuseWrite j value driver.program).1 ≤ 0
  · rw [if_pos hProgram]
    exact ⟨hWrote, fun hOk => absurd (show (-2 : Int) < 0 by decide) hOk⟩
  by_cases hVerify : (efuseRead j driver.verify).1 < 0
  · rw [if_neg hProgram, if_pos hVerify]
    exact ⟨hBoth, fun hOk => absurd (show (-3 : Int) < 0 by decide) hOk⟩
  by_cases hSame : hexWord (wordBytes value) ≠ (efuseRead j driver.verify).2.1
  · rw [if_neg hProgram, if_neg hVerify, if_pos hSame]
    exact ⟨hBoth, fun hOk => absurd (show (-4 : Int) < 0 by decide) hOk⟩
  by_cases hLock : (efuseWrite j hashBit driver.lock).1 < 0
  · rw [if_neg hProgram, if_neg hVerify, if_neg hSame, if_pos hLock]
    exact ⟨hAll, fun hOk => absurd (show (-5 : Int) < 0 by decide) hOk⟩
  · rw [if_neg hProgram, if_neg hVerify, if_neg hSame, if_neg hLock]
    refine ⟨hAll, fun _ => ?_⟩
    obtain ⟨len, hLen, hWritten⟩ := efuseWrite_pos hProgram
    obtain ⟨buf, hBuf⟩ := efuseRead_ok hVerify
    rw [hBuf] at hSame
    have hWord : wordBytes value = buf := hexWord_injective (not_not.mp hSame)
    refine ⟨len, (efuseWrite j hashBit driver.lock).2, hLen, ?_, fun _ => efuseWrite_events⟩
    dsimp only
    rw [hWritten, hBuf, hWord]
    rfl

/-- The passes access blocks in front of the count only, and when all of
them succeed every such block has been written and read back. -/
theorem hashLoop_spec (source : Source) (longBits : Nat) (hash : Nat → UInt8) (count : Int)
    (driver : Nat → BlockOutcome) (passes k : Nat) (len : Int) :
    (∀ event ∈ (hashLoop source longBits hash count driver passes k len).2.2,
      ∃ i : Nat, event.block = source.hashBlockStart + i ∧ 8 * i < count) ∧
    ((hashLoop source longBits hash count driver passes k len).2.1 = true →
      ∀ i, k ≤ i → i < k + passes → (8 * i : Int) < count → ∃ written : Int, 0 < written ∧
        [Event.wrote (source.hashBlockStart + i) (hashWord longBits hash (8 * i)) written,
          Event.readBack (source.hashBlockStart + i)
            (wordBytes (hashWord longBits hash (8 * i)))].Sublist
          (hashLoop source longBits hash count driver passes k len).2.2) := by
  induction passes generalizing k len with
  | zero =>
      refine ⟨fun event hEvent => absurd hEvent List.not_mem_nil, ?_⟩
      intro _ i hLow hHigh
      omega
  | succ passes ih =>
      rw [hashLoop]
      by_cases hCount : (8 * k : Int) < count
      · obtain ⟨hBlock, hOk⟩ := hashBlock_spec (source.hashBlockStart + k)
          (hashWord longBits hash (8 * k)) (driver k)
        rw [if_pos hCount]
        dsimp only
        generalize hashBlock (source.hashBlockStart + k) (hashWord longBits hash (8 * k)) (driver k) =
          block at hBlock hOk
        by_cases hFails : block.1 < 0
        · rw [if_pos hFails]
          refine ⟨fun event hEvent => ⟨k, hBlock event hEvent, hCount⟩, ?_⟩
          exact fun hTrue => absurd hTrue Bool.false_ne_true
        · rw [if_neg hFails]
          obtain ⟨hRest, hRestOk⟩ := ih (k + 1) (len + block.1)
          constructor
          · intro event hEvent
            rcases List.mem_append.mp hEvent with hFirst | hLater
            · exact ⟨k, hBlock event hFirst, hCount⟩
            · exact hRest event hLater
          · intro hTrue i hLow hHigh hi
            rcases Nat.eq_or_lt_of_le hLow with hThis | hLater
            · subst hThis
              obtain ⟨written, locked, hLen, hEvents, -⟩ := hOk hFails
              refine ⟨written, hLen, ?_⟩
              rw [hEvents, List.append_assoc]
              exact List.sublist_append_left _ _
            · obtain ⟨written, hLen, hSublist⟩ := hRestOk hTrue i hLater (by omega) hi
              exact ⟨written, hLen, hSublist.trans (List.sublist_append_right _ _)⟩
      · rw [if_neg hCount]
        refine ⟨fun event hEvent => absurd hEvent List.not_mem_nil, ?_⟩
        intro _ i hLow _ hi
        omega

/-- The bit has only ever been written over a complete hash. -/
def State.ArmedOverHash (source : Source) (longBits : Nat) (s : State) : Prop :=
  ∀ w ∈ s.armed, ∃ hashWrite, w = some hashWrite ∧ hashWrite.Complete source longBits

/-- An `efuse_secure_enable` that comes to its write finds a hash with a
count for all blocks. -/
def CoversHash (s : State) : Call → Prop
  | .secureEnable (.write _) =>
      s.writeOkFlag = true → ∃ hashWrite, s.hashWrite = some hashWrite ∧ 32 < hashWrite.count
  | _ => True

/-- The flag stands for the blocks in front of the count, and no others have
been accessed. -/
structure Inv (source : Source) (longBits : Nat) (s : State) : Prop where
  armed : s.ArmedOverHash source longBits
  flag : s.writeOkFlag = true → ∃ hashWrite, s.hashWrite = some hashWrite ∧
    ∀ k < source.hashBlockLen, (8 * k : Int) < hashWrite.count →
      hashWrite.Verified source longBits k
  covered : ∀ hashWrite, s.hashWrite = some hashWrite → ∀ k < source.hashBlockLen,
    hashWrite.Verified source longBits k → (8 * k : Int) < hashWrite.count

/-- A hash of twenty bytes takes five blocks, in every variant of the
source. -/
theorem hashBlockLen_eq (source : Source) : source.hashBlockLen = 5 := by
  cases source <;> rfl

theorem inv_init (source : Source) (longBits : Nat) : Inv source longBits State.init where
  armed _ hw := absurd hw List.not_mem_nil
  flag h := absurd h Bool.false_ne_true
  covered _ h := absurd h.symm (Option.some_ne_none _)

theorem Inv.setRet {source : Source} {longBits : Nat} {s : State} (h : Inv source longBits s)
    (ret : Int) : Inv source longBits { s with ret := ret } where
  armed := h.armed
  flag := h.flag
  covered := h.covered

/-- Writing a hash sets the flag only for blocks in front of the count, and
has no access to others. -/
theorem Inv.hashWrite {source : Source} {longBits : Nat} {s : State} (h : Inv source longBits s)
    (hash : Option (Nat → UInt8)) (count : Int) (driver : Nat → BlockOutcome) :
    Inv source longBits (efuseHashWrite source longBits s hash count driver) := by
  cases hash with
  | none => exact h.setRet (-1)
  | some hash =>
      unfold efuseHashWrite
      dsimp only
      by_cases hCount : count < 1
      · rw [if_pos hCount]
        exact h.setRet (-1)
      · rw [if_neg hCount]
        have hLen := hashBlockLen_eq source
        obtain ⟨hEvents, hOk⟩ := hashLoop_spec source longBits hash
          (min count (source.hashBlockLen * 8)) driver source.hashBlockLen 0 0
        constructor
        · exact h.armed
        · intro hFlag
          refine ⟨_, rfl, ?_⟩
          intro k hk hCovered
          exact hOk hFlag k (Nat.zero_le k) (by omega) (by dsimp only at hCovered; omega)
        · intro hashWrite hWrite k hk hVerified
          obtain rfl := Option.some.inj hWrite
          obtain ⟨len, _, hSublist⟩ := hVerified
          obtain ⟨i, hBlock, hi⟩ := hEvents _ (hSublist.subset List.mem_cons_self)
          have hSame : source.hashBlockStart + k = source.hashBlockStart + i := hBlock
          dsimp only
          omega

/-- Enabling keeps the history clean exactly when it finds a hash that was
covered. -/
theorem Inv.secureEnable_iff {source : Source} {longBits : Nat} {s : State}
    (h : Inv source longBits s) (driver : WriteOutcome) :
    (efuseSecureEnable source s driver).ArmedOverHash source longBits ↔
      CoversHash s (.secureEnable driver) := by
  have hLen := hashBlockLen_eq source
  unfold efuseSecureEnable
  cases hFlag : s.writeOkFlag with
  | false =>
      refine iff_of_true h.armed ?_
      cases driver with
      | write len => exact fun hTrue => absurd (hFlag.symm.trans hTrue) Bool.false_ne_true
      | _ => exact trivial
  | true =>
      obtain ⟨hashWrite, hWrite, hVerified⟩ := h.flag hFlag
      have hNoWrite : ∀ w ∈ s.armed ++ [],
          ∃ hashWrite, w = some hashWrite ∧ hashWrite.Complete source longBits := by
        intro w hw
        rw [List.append_nil] at hw
        exact h.armed w hw
      cases driver with
      | write len =>
          constructor
          · intro hArmed _
            obtain ⟨last, hLast, hComplete⟩ := hArmed s.hashWrite
              (List.mem_append_right _ (by simp))
            have hFifth := h.covered last hLast 4 (by omega) (hComplete 4 (by omega))
            exact ⟨last, hLast, by omega⟩
          · intro hCovers w hw
            obtain ⟨last, hLast, hCount⟩ := hCovers hFlag
            obtain rfl := Option.some.inj (hWrite.symm.trans hLast)
            rcases List.mem_append.mp hw with hOld | hNew
            · exact h.armed w hOld
            · obtain ⟨event, _, rfl⟩ := List.mem_map.mp hNew
              refine ⟨hashWrite, hWrite, ?_⟩
              intro k hk
              exact hVerified k hk (by omega)
      | _ => exact iff_of_true hNoWrite trivial

/-- The enabling keeps the invariant where the count of the last hash has
covered its five words. -/
theorem Inv.secureEnable {source : Source} {longBits : Nat} {s : State}
    (h : Inv source longBits s) {driver : WriteOutcome}
    (hCovers : CoversHash s (.secureEnable driver)) :
    Inv source longBits (efuseSecureEnable source s driver) := by
  have hArmed := (h.secureEnable_iff driver).mpr hCovers
  have hSame : (efuseSecureEnable source s driver).writeOkFlag = s.writeOkFlag ∧
      (efuseSecureEnable source s driver).hashWrite = s.hashWrite := by
    unfold efuseSecureEnable
    split
    · exact ⟨rfl, rfl⟩
    · exact ⟨rfl, rfl⟩
  constructor
  · exact hArmed
  · rw [hSame.1, hSame.2]
    exact h.flag
  · rw [hSame.2]
    exact h.covered

/-- In every run of calls, whatever the driver does, the secure-boot bit is
written over complete hashes only, exactly when no `efuse_secure_enable`
comes to its write over a hash whose count left blocks out. -/
theorem secureBoot_iff (source : Source) (longBits : Nat) (calls : List Call) :
    Transition.Safe (step source longBits) (State.ArmedOverHash source longBits) State.init calls ↔
      Transition.Meets (step source longBits) CoversHash State.init calls := by
  apply @Transition.safe_iff_meets _ _ (step source longBits) CoversHash (Inv source longBits)
  · exact fun s hInv => hInv.armed
  · intro s call _
    cases call with
    | hashWrite hash count driver => exact ⟨_, rfl⟩
    | secureEnable driver => exact ⟨_, rfl⟩
    | secureIsEnabled driver => exact ⟨_, rfl⟩
    | isHashWrite driver => exact ⟨_, rfl⟩
    | hashRead hash count driver => exact ⟨_, rfl⟩
    | uidRead uid count driver => exact ⟨_, rfl⟩
  · intro s call t hInv hCovers hStep
    cases call with
    | hashWrite hash count driver =>
        obtain rfl := Option.some.inj hStep
        exact hInv.hashWrite hash count driver
    | secureEnable driver =>
        obtain rfl := Option.some.inj hStep
        exact hInv.secureEnable hCovers
    | secureIsEnabled driver =>
        obtain rfl := Option.some.inj hStep
        exact hInv.setRet _
    | isHashWrite driver =>
        obtain rfl := Option.some.inj hStep
        exact hInv.setRet _
    | hashRead hash count driver =>
        obtain rfl := Option.some.inj hStep
        exact hInv.setRet _
    | uidRead uid count driver =>
        obtain rfl := Option.some.inj hStep
        exact hInv.setRet _
  · intro s call t hInv hStep hArmed
    cases call with
    | secureEnable driver =>
        obtain rfl := Option.some.inj hStep
        exact (hInv.secureEnable_iff driver).mp hArmed
    | _ => exact trivial
  · exact inv_init source longBits

/-- Eight zeros of a hash string, and what the driver reads back for them. -/
def shortHash : List Call :=
  [.hashWrite (some fun _ => 0x30) 8 fun _ => ⟨.write 4, .read [0, 0, 0, 0], .write 4⟩,
    .secureEnable (.write 4)]

/-- The first block only is written, read back and locked. -/
def shortHashWrite : HashWrite :=
  ⟨fun _ => 0x30, 8, [.wrote 7 0 4, .readBack 7 [0, 0, 0, 0], .wrote 7 hashBit 4]⟩

/-- One block of the hash is enough for the bit to be written. -/
theorem shortHash_arms :
    ¬Transition.Safe (step .sprd 32) (State.ArmedOverHash .sprd 32) State.init shortHash := by
  intro hSafe
  obtain ⟨s, hRun, hArmed⟩ := hSafe.last
  have hState : Transition.run (step .sprd 32) State.init shortHash =
      some ⟨true, 0, some shortHashWrite, [some shortHashWrite]⟩ := rfl
  obtain rfl := Option.some.inj (hState.symm.trans hRun)
  obtain ⟨hashWrite, hWrite, hComplete⟩ := hArmed _ List.mem_cons_self
  obtain rfl := Option.some.inj hWrite
  obtain ⟨len, _, hSublist⟩ := hComplete 1 (by decide)
  have hSecond := hSublist.subset List.mem_cons_self
  simp [shortHashWrite, Source.hashBlockStart] at hSecond

end Efuse
