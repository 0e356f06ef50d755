import Gtexswifi.SignImage.Sha256
import Mathlib.Data.Fin.VecNotation
import Mathlib.Data.Fintype.Basic
import Mathlib.Data.List.GetD
import Mathlib.Tactic.FinCases

/-! The two builds of the compression, with the calls of `RND` written out
and, under `LTC_SMALL_CODE`, in a loop that moves the working variables,
against the standard's rounds over the message schedule. -/
namespace SignImage

/-- The array `S[8]` of the working variables. -/
abbrev Working : Type := Fin 8 → UInt32

/-- The macro `RND` on the array, given the places of its arguments `a` to
`h`. -/
def rndAt (S : Working) (places : Fin 8 → Fin 8) (ki wi : UInt32) : Working :=
  let t0 := S (places 7) + sigma1 (S (places 4)) +
    ch (S (places 4)) (S (places 5)) (S (places 6)) + ki + wi
  let t1 := sigma0 (S (places 0)) + maj (S (places 0)) (S (places 1)) (S (places 2))
  let S := Function.update S (places 3) (S (places 3) + t0)
  Function.update S (places 7) (t0 + t1)

/-- Eight of the calls that are written out; the other calls repeat their
arguments. -/
def eightCalls : List (Fin 8 → Fin 8) := [
  ![0, 1, 2, 3, 4, 5, 6, 7], ![7, 0, 1, 2, 3, 4, 5, 6], ![6, 7, 0, 1, 2, 3, 4, 5],
  ![5, 6, 7, 0, 1, 2, 3, 4], ![4, 5, 6, 7, 0, 1, 2, 3], ![3, 4, 5, 6, 7, 0, 1, 2],
  ![2, 3, 4, 5, 6, 7, 0, 1], ![1, 2, 3, 4, 5, 6, 7, 0]]

def unrolledCalls : List (Fin 8 → Fin 8) := (List.replicate 8 eightCalls).flatten

/-- The copy of the state into `S[8]`. -/
def HashWords.toWorking (s : HashWords) : Working := ![s.a, s.b, s.c, s.d, s.e, s.f, s.g, s.h]

/-- The end of the compression: the state with `S[8]` added to it. -/
def feedback (state : HashWords) (S : Working) : HashWords :=
  ⟨state.a + S 0, state.b + S 1, state.c + S 2, state.d + S 3,
    state.e + S 4, state.f + S 5, state.g + S 6, state.h + S 7⟩

/-- The schedule `W[64]`. -/
def schedule (buf : List UInt8) : List UInt32 := (fillWords 48 (loadWords 16 buf [])).reverse

/-- The compression as it is built. -/
def unrolledCompress (state : HashWords) (buf : List UInt8) : HashWords :=
  feedback state <|
    (unrolledCalls.zip (roundConstants.zip (schedule buf))).foldl
      (fun S call => rndAt S call.1 call.2.1 call.2.2) state.toWorking

/-- One pass of the loop of `LTC_SMALL_CODE`. -/
def smallRound (S : Working) (ki wi : UInt32) : Working :=
  let S := rndAt S ![0, 1, 2, 3, 4, 5, 6, 7] ki wi
  ![S 7, S 0, S 1, S 2, S 3, S 4, S 5, S 6]

def smallCompress (state : HashWords) (buf : List UInt8) : HashWords :=
  feedback state <|
    (roundConstants.zip (schedule buf)).foldl (fun S kw => smallRound S kw.1 kw.2) state.toWorking

def standardCh (x y z : UInt32) : UInt32 := (x &&& y) ^^^ (~~~x &&& z)

def standardMaj (x y z : UInt32) : UInt32 := (x &&& y) ^^^ (x &&& z) ^^^ (y &&& z)

/-- The word of the message schedule at a place. -/
def scheduleWord (block : List UInt8) (t : Nat) : UInt32 :=
  if t < 16 then load32H ((block.drop (4 * t)).take 4)
  else
    gamma1 (scheduleWord block (t - 2)) + scheduleWord block (t - 7) +
      gamma0 (scheduleWord block (t - 15)) + scheduleWord block (t - 16)
termination_by t

/-- One round over the working variables. -/
def standardRound (s : HashWords) (k w : UInt32) : HashWords :=
  let t1 := s.h + sigma1 s.e + standardCh s.e s.f s.g + k + w
  let t2 := sigma0 s.a + standardMaj s.a s.b s.c
  { a := t1 + t2, b := s.a, c := s.b, d := s.c, e := s.d + t1, f := s.e, g := s.f, h := s.g }

def standardCompress (state : HashWords) (block : List UInt8) : HashWords :=
  feedback state <| HashWords.toWorking <|
    (List.range 64).foldl
      (fun s t => standardRound s (roundConstants.getD t 0) (scheduleWord block t)) state

/-- The choice with three operations is the one of the standard. -/
theorem ch_eq (x y z : UInt32) : ch x y z = standardCh x y z := by
  apply UInt32.toBitVec_inj.mp
  ext i
  simp only [ch, standardCh, UInt32.toBitVec_xor, UInt32.toBitVec_and, UInt32.toBitVec_not,
    BitVec.getElem_xor, BitVec.getElem_and, BitVec.getElem_not]
  cases x.toBitVec[i] <;> cases y.toBitVec[i] <;> cases z.toBitVec[i] <;> rfl

/-- The majority with four operations is the one of the standard. -/
theorem maj_eq (x y z : UInt32) : maj x y z = standardMaj x y z := by
  apply UInt32.toBitVec_inj.mp
  ext i
  simp only [maj, standardMaj, UInt32.toBitVec_xor, UInt32.toBitVec_and, UInt32.toBitVec_or,
    BitVec.getElem_xor, BitVec.getElem_and, BitVec.getElem_or]
  cases x.toBitVec[i] <;> cases y.toBitVec[i] <;> cases z.toBitVec[i] <;> rfl

theorem rnd_eq (s : HashWords) (ki wi : UInt32) : rnd s ki wi = standardRound s ki wi := by
  simp only [rnd, standardRound, ch_eq, maj_eq]

/-- The first words of the schedule, the last one first. -/
def scheduled (block : List UInt8) (count : Nat) : List UInt32 :=
  ((List.range count).map (scheduleWord block)).reverse

theorem scheduled_succ (block : List UInt8) (count : Nat) :
    scheduled block (count + 1) = scheduleWord block count :: scheduled block count := by
  rw [scheduled, List.range_succ, List.map_append, List.reverse_append]
  rfl

/-- Counted from the last one, a word of the schedule is found. -/
theorem getD_scheduled (block : List UInt8) {count back : Nat} (h : back < count) :
    (scheduled block count).getD back 0 = scheduleWord block (count - 1 - back) := by
  have hLength : (scheduled block count).length = count := by
    rw [scheduled, List.length_reverse, List.length_map, List.length_range]
  rw [List.getD_eq_getElem _ _ (by omega)]
  simp only [scheduled, List.getElem_reverse, List.getElem_map, List.getElem_range,
    List.length_map, List.length_range]

/-- The sixteen words of the block are the first of the schedule. By
induction on their number. -/
theorem loadWords_scheduled (block : List UInt8) {count first : Nat} (h : first + count ≤ 16) :
    loadWords count (block.drop (4 * first)) (scheduled block first) =
      scheduled block (first + count) := by
  induction count generalizing first with
  | zero => rfl
  | succ count ih =>
      have hWord : scheduleWord block first = load32H ((block.drop (4 * first)).take 4) := by
        rw [scheduleWord, if_pos (by omega)]
      rw [loadWords, ← hWord, ← scheduled_succ, List.drop_drop,
        show 4 * first + 4 = 4 * (first + 1) by omega, ih (by omega)]
      congr 1
      omega

/-- The others are computed from those sixteen places back. By induction on
their number. -/
theorem fillWords_scheduled (block : List UInt8) {count first : Nat} (h : 16 ≤ first) :
    fillWords count (scheduled block first) = scheduled block (first + count) := by
  induction count generalizing first with
  | zero => rfl
  | succ count ih =>
      have hWord : scheduleWord block first =
          gamma1 (scheduleWord block (first - 2)) + scheduleWord block (first - 7) +
            gamma0 (scheduleWord block (first - 15)) + scheduleWord block (first - 16) := by
        rw [scheduleWord, if_neg (by omega)]
      rw [fillWords, getD_scheduled _ (by omega), getD_scheduled _ (by omega),
        getD_scheduled _ (by omega), getD_scheduled _ (by omega), Nat.sub_sub, Nat.sub_sub,
        Nat.sub_sub, Nat.sub_sub, ← hWord, ← scheduled_succ, ih (by omega)]
      congr 1
      omega

theorem schedule_eq (block : List UInt8) :
    schedule block = (List.range 64).map (scheduleWord block) := by
  have hLoad : loadWords 16 (block.drop (4 * 0)) (scheduled block 0) = scheduled block (0 + 16) :=
    loadWords_scheduled block (by decide)
  rw [Nat.mul_zero, List.drop_zero] at hLoad
  rw [schedule, show ([] : List UInt32) = scheduled block 0 from rfl, hLoad,
    fillWords_scheduled block (by decide), scheduled, List.reverse_reverse]

/-- The constants with their words, as the standard indexes them. -/
theorem constants_zip_schedule (block : List UInt8) :
    roundConstants.zip (schedule block) =
      (List.range 64).map fun t => (roundConstants.getD t 0, scheduleWord block t) := by
  have hConstants : roundConstants = (List.range 64).map fun t => roundConstants.getD t 0 := by
    decide
  rw [schedule_eq]
  conv_lhs => rw [hConstants]
  exact List.zip_map' ..

/-- The working variables, from a place of the array on. -/
def readFrom (S : Working) (place : Fin 8) : HashWords :=
  ⟨S place, S (place + 1), S (place + 2), S (place + 3), S (place + 4), S (place + 5),
    S (place + 6), S (place + 7)⟩

/-- Read from the place that is its start, the array holds the words. -/
theorem readFrom_toWorking (s : HashWords) : readFrom s.toWorking 0 = s := rfl

theorem toWorking_readFrom (S : Working) : (readFrom S 0).toWorking = S := by
  funext i
  fin_cases i <;> rfl

/-- A call moves the first working variable one place back. -/
theorem readFrom_rndAt (S : Working) (place : Fin 8) (ki wi : UInt32) :
    readFrom (rndAt S (fun k => place + k) ki wi) (place + 7) = rnd (readFrom S place) ki wi := by
  fin_cases place <;> simp [readFrom, rndAt, rnd]

/-- The arguments of calls that start at a place of the array. -/
def callsFrom : Nat → Fin 8 → List (Fin 8 → Fin 8)
  | 0, _ => []
  | count + 1, place => (fun k => place + k) :: callsFrom count (place + 7)

/-- The eight calls in the source are consecutive ones, each rotated by one
more. -/
theorem eightCalls_eq : eightCalls = callsFrom 8 0 := by
  simp only [eightCalls, callsFrom, List.cons.injEq, and_true]
  refine ⟨?_, ?_, ?_, ?_, ?_, ?_, ?_, ?_⟩ <;>
    (funext k; fin_cases k <;> rfl)

theorem unrolledCalls_eq : unrolledCalls = callsFrom 64 0 := by
  rw [unrolledCalls, eightCalls_eq]
  rfl

/-- The places behind `count` calls. -/
theorem foldl_callsFrom (pairs : List (UInt32 × UInt32)) (S : Working) (place : Fin 8) :
    ∃ last : Fin 8, last.val = (place.val + 7 * pairs.length) % 8 ∧
      readFrom (((callsFrom pairs.length place).zip pairs).foldl
          (fun S call => rndAt S call.1 call.2.1 call.2.2) S) last =
        pairs.foldl (fun s kw => rnd s kw.1 kw.2) (readFrom S place) := by
  induction pairs generalizing S place with
  | nil => exact ⟨place, (Nat.mod_eq_of_lt place.isLt).symm, rfl⟩
  | cons kw pairs ih =>
      obtain ⟨last, hLast, hRead⟩ := ih (rndAt S (fun k => place + k) kw.1 kw.2) (place + 7)
      refine ⟨last, ?_, ?_⟩
      · rw [hLast, List.length_cons, Fin.val_add]
        change ((place.val + 7) % 8 + 7 * pairs.length) % 8 = _
        omega
      · rw [List.length_cons, callsFrom, List.zip_cons_cons, List.foldl_cons, List.foldl_cons,
          hRead, readFrom_rndAt]

theorem readFrom_smallRound (S : Working) (ki wi : UInt32) :
    readFrom (smallRound S ki wi) 0 = rnd (readFrom S 0) ki wi := rfl

theorem readFrom_smallRounds (pairs : List (UInt32 × UInt32)) (S : Working) :
    readFrom (pairs.foldl (fun S kw => smallRound S kw.1 kw.2) S) 0 =
      pairs.foldl (fun s kw => rnd s kw.1 kw.2) (readFrom S 0) := by
  induction pairs generalizing S with
  | nil => rfl
  | cons kw pairs ih => rw [List.foldl_cons, List.foldl_cons, ih, readFrom_smallRound]

/-- All the rounds over the schedule are those of the standard. -/
theorem foldl_rnd_eq (state : HashWords) (block : List UInt8) :
    (roundConstants.zip (schedule block)).foldl (fun s kw => rnd s kw.1 kw.2) state =
      (List.range 64).foldl
        (fun s t => standardRound s (roundConstants.getD t 0) (scheduleWord block t)) state := by
  rw [constants_zip_schedule, List.foldl_map]
  simp only [rnd_eq]

theorem length_constants_zip (block : List UInt8) :
    (roundConstants.zip (schedule block)).length = 64 := by
  rw [constants_zip_schedule, List.length_map, List.length_range]

theorem sha256Compress_eq (state : HashWords) (block : List UInt8) :
    sha256Compress state block = standardCompress state block := by
  rw [standardCompress, ← foldl_rnd_eq]
  rfl

theorem smallCompress_eq (state : HashWords) (block : List UInt8) :
    smallCompress state block = standardCompress state block := by
  have hRounds := readFrom_smallRounds (roundConstants.zip (schedule block)) state.toWorking
  rw [readFrom_toWorking, foldl_rnd_eq] at hRounds
  rw [smallCompress, standardCompress, ← hRounds, toWorking_readFrom]

theorem unrolledCompress_eq (state : HashWords) (block : List UInt8) :
    unrolledCompress state block = standardCompress state block := by
  obtain ⟨last, hLast, hRounds⟩ :=
    foldl_callsFrom (roundConstants.zip (schedule block)) state.toWorking 0
  rw [length_constants_zip] at hLast hRounds
  obtain rfl : last = 0 := Fin.ext hLast
  rw [readFrom_toWorking, foldl_rnd_eq] at hRounds
  rw [unrolledCompress, standardCompress, unrolledCalls_eq, ← hRounds, toWorking_readFrom]

/-- Both builds, and the compression that the hash is modelled with, are the
standard's. -/
theorem compressions_agree (state : HashWords) (block : List UInt8) :
    unrolledCompress state block = standardCompress state block ∧
      smallCompress state block = standardCompress state block ∧
        sha256Compress state block = standardCompress state block :=
  ⟨unrolledCompress_eq state block, smallCompress_eq state block, sha256Compress_eq state block⟩

end SignImage
