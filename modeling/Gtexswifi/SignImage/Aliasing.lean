import Gtexswifi.SignImage.Pointers
import Mathlib.Data.List.GetD

/-! A call with two pointers to one bignum computes what it computes of two
copies: every pass of a loop reads the limbs at its index before it stores
one, and none goes back. -/
namespace SignImage

variable {ρ : Type} [DecidableEq ρ]

namespace SBigInt

/-- The bignum with new limbs at the indices. -/
def puts (x : SBigInt) : List Nat → List UInt32 → SBigInt
  | i :: is, d :: ds => (x.put i d).puts is ds
  | _, _ => x

theorem limb_eq (x : SBigInt) {i : Nat} (h : i < bigintMaxlen) :
    x.limb i = .ok (x.ulValue.getD i 0) := by
  have hIndex : i < x.ulValue.length := by rwa [x.size]
  rw [limb, List.getElem?_eq_getElem hIndex, List.getD_eq_getElem _ _ hIndex]
  rfl

theorem getD_put_of_ne (x : SBigInt) {i j : Nat} (h : i ≠ j) (d : UInt32) :
    (x.put i d).ulValue.getD j 0 = x.ulValue.getD j 0 := by
  rw [List.getD_eq_getElem?_getD, List.getD_eq_getElem?_getD]
  exact congrArg (Option.getD · 0) (List.getElem?_set_ne (l := x.ulValue) (a := d) h)

theorem ulValue_put_zero (x : SBigInt) (d : UInt32) :
    (x.put 0 d).ulValue = d :: x.ulValue.drop 1 := by
  have hSize := x.size
  unfold put
  dsimp only
  cases hLimbs : x.ulValue with
  | nil =>
      rw [hLimbs] at hSize
      cases hSize
  | cons first rest => rfl

@[simp] theorem iLength32_puts (x : SBigInt) (is : List Nat) (ds : List UInt32) :
    (x.puts is ds).iLength32 = x.iLength32 := by
  induction is generalizing x ds with
  | nil => rfl
  | cons i is ih =>
      cases ds with
      | nil => rfl
      | cons d ds => exact ih _ _

/-- From the bottom up. -/
theorem ulValue_puts_range' (x : SBigInt) {k : Nat} {ds : List UInt32}
    (h : k + ds.length ≤ bigintMaxlen) :
    (x.puts (List.range' k ds.length) ds).ulValue =
      x.ulValue.take k ++ ds ++ x.ulValue.drop (k + ds.length) := by
  induction ds generalizing x k with
  | nil => simp [puts]
  | cons d ds ih =>
      have hk : k < x.ulValue.length := by
        rw [x.size]
        rw [List.length_cons] at h
        omega
      rw [List.length_cons] at h
      rw [List.length_cons, List.range'_succ, puts, ih _ (by omega)]
      simp only [put]
      rw [List.take_succ_eq_append_getElem (by rwa [List.length_set]), List.getElem_set_self,
        List.take_set_of_le (Nat.le_refl k), List.drop_set_of_lt (by omega)]
      simp [Nat.add_assoc, Nat.add_comm 1]

/-- From the top down. -/
theorem ulValue_puts_reverse (x : SBigInt) {ds : List UInt32} (h : ds.length ≤ bigintMaxlen) :
    (x.puts (List.range ds.length).reverse ds).ulValue =
      ds.reverse ++ x.ulValue.drop ds.length := by
  induction ds generalizing x with
  | nil => rfl
  | cons d ds ih =>
      have hLength : ds.length < x.ulValue.length := by
        rw [x.size]
        exact h
      rw [List.length_cons, List.range_succ, List.reverse_append, List.reverse_singleton,
        List.singleton_append, puts, ih _ (Nat.le_of_succ_le h), List.reverse_cons]
      simp only [put]
      rw [List.drop_eq_getElem_cons (by rwa [List.length_set]), List.getElem_set_self,
        List.drop_set_of_lt (Nat.lt_succ_self _)]
      simp

end SBigInt

/-- What a loop stores for pairs of limbs, with the carry behind it. -/
def stepLimbs {σ : Type} (step : σ → UInt32 → UInt32 → UInt32 × σ) (carry : σ) :
    List (UInt32 × UInt32) → List UInt32 × σ
  | [] => ([], carry)
  | (a, b) :: rest =>
      let later := stepLimbs step (step carry a b).2 rest
      ((step carry a b).1 :: later.1, later.2)

/-- A store into a limb inside the array is defined, and changes the one
object. -/
theorem store_eq (s : Objects ρ) (r : ρ) {i : Nat} (h : i < bigintMaxlen) (d : UInt32) :
    store s r i d = .ok (Function.update s r ((s r).put i d)) := by
  rw [store, SBigInt.setLimb, if_pos h]
  rfl

/-- A limb that a loop stores is not read any more, even through another
pointer to it. -/
theorem limbLoop_eq {σ : Type} (step : σ → UInt32 → UInt32 → UInt32 × σ) (sOut sIn sIn2 : ρ)
    {is : List Nat} (hNodup : is.Nodup) (hBound : ∀ i ∈ is, i < bigintMaxlen) (carry : σ)
    (s : Objects ρ) :
    limbLoop step sOut sIn sIn2 is carry s =
      let result := stepLimbs step carry
        (is.map fun i => ((s sIn).ulValue.getD i 0, (s sIn2).ulValue.getD i 0))
      .ok (result.2, Function.update s sOut ((s sOut).puts is result.1)) := by
  induction is generalizing carry s with
  | nil =>
      simp only [limbLoop, List.map_nil, stepLimbs, SBigInt.puts, Function.update_eq_self]
      rfl
  | cons i is ih =>
      have hi := hBound i List.mem_cons_self
      obtain ⟨hFresh, hRest⟩ := List.nodup_cons.mp hNodup
      rw [limbLoop, SBigInt.limb_eq _ hi, ok_bind, SBigInt.limb_eq _ hi, ok_bind, store_eq _ _ hi,
        ok_bind, ih hRest fun j hj => hBound j (List.mem_cons_of_mem i hj)]
      have hSame (r : ρ) (d : UInt32) (j : Nat) (hj : j ∈ is) :
          (Function.update s sOut ((s sOut).put i d) r).ulValue.getD j 0 =
            (s r).ulValue.getD j 0 := by
        by_cases hr : r = sOut
        · rw [hr, Function.update_self]
          exact (s sOut).getD_put_of_ne (show i ≠ j from fun h => hFresh (h ▸ hj)) d
        · rw [Function.update_of_ne hr]
      have hPairs (d : UInt32) : is.map (fun j =>
          ((Function.update s sOut ((s sOut).put i d) sIn).ulValue.getD j 0,
            (Function.update s sOut ((s sOut).put i d) sIn2).ulValue.getD j 0)) =
          is.map fun j => ((s sIn).ulValue.getD j 0, (s sIn2).ulValue.getD j 0) :=
        List.map_congr_left fun j hj => Prod.ext (hSame sIn d j hj) (hSame sIn2 d j hj)
      simp only [hPairs, Function.update_self, Function.update_idem, List.map_cons, stepLimbs,
        SBigInt.puts]

theorem map_range_getD {limbs : List UInt32} {n : Nat} (h : n ≤ limbs.length) :
    (List.range n).map (fun i => limbs.getD i 0) = limbs.take n := by
  apply List.ext_getElem
  · simp [h]
  · intro i hi _
    have hIndex : i < limbs.length := by
      rw [List.length_map, List.length_range] at hi
      omega
    simp [hIndex]

theorem map_range_pairs {as bs : List UInt32} {n : Nat} (ha : n ≤ as.length)
    (hb : n ≤ bs.length) :
    (List.range n).map (fun i => (as.getD i 0, bs.getD i 0)) = (as.take n).zip (bs.take n) := by
  rw [← map_range_getD ha, ← map_range_getD hb, List.zip_map']

/-- The loop of the addition over separate arrays, step by step. -/
theorem stepLimbs_addStep (carry : Nat) (as bs : List UInt32) :
    stepLimbs addStep carry (as.zip bs) = addLimbs carry as bs := by
  induction as generalizing carry bs with
  | nil => rfl
  | cons a as ih =>
      cases bs with
      | nil => rfl
      | cons b bs =>
          rw [List.zip_cons_cons, stepLimbs, ih]
          rfl

/-- The loop of the subtraction over separate arrays, step by step. -/
theorem stepLimbs_subStep (carry : Nat) (as bs : List UInt32) :
    (stepLimbs subStep carry (as.zip bs)).1 = subLimbs carry as bs := by
  induction as generalizing carry bs with
  | nil => rfl
  | cons a as ih =>
      cases bs with
      | nil => rfl
      | cons b bs =>
          rw [List.zip_cons_cons, stepLimbs, subLimbs]
          dsimp only
          rw [ih, subStep]
          split <;> rfl

/-- The loop of the division over separate arrays, step by step. -/
theorem stepLimbs_divStep (ulIn carry : Nat) (as : List UInt32) :
    (stepLimbs (divStep ulIn) carry (as.zip as)).1 = divLimbs ulIn carry as := by
  induction as generalizing carry with
  | nil => rfl
  | cons a as ih =>
      rw [List.zip_cons_cons, stepLimbs, divLimbs]
      dsimp only
      rw [ih]
      rfl

theorem length_stepLimbs {σ : Type} (step : σ → UInt32 → UInt32 → UInt32 × σ) (carry : σ)
    (pairs : List (UInt32 × UInt32)) : (stepLimbs step carry pairs).1.length = pairs.length := by
  induction pairs generalizing carry with
  | nil => rfl
  | cons pair rest ih => exact congrArg (· + 1) (ih _)

theorem setLength_ulValue (s : Objects ρ) (r sOut : ρ) (length : Nat) :
    (setLength s sOut length r).ulValue = (s r).ulValue := by
  by_cases hr : r = sOut
  · rw [setLength, hr, Function.update_self]
    rfl
  · rw [setLength, Function.update_of_ne hr]

/-- The loops that go up: the limbs of the result are over those that the
bignum had. -/
theorem limbLoop_range {σ : Type} (step : σ → UInt32 → UInt32 → UInt32 × σ) (sOut sIn sIn2 : ρ)
    (carry : σ) (s : Objects ρ) {n : Nat} (h : n ≤ bigintMaxlen) (length : Nat) :
    ∃ y, limbLoop step sOut sIn sIn2 (List.range n) carry (setLength s sOut length) =
        .ok ((stepLimbs step carry
          (((s sIn).ulValue.take n).zip ((s sIn2).ulValue.take n))).2, Function.update s sOut y) ∧
      y.iLength32 = length ∧ y.ulValue = (stepLimbs step carry
        (((s sIn).ulValue.take n).zip ((s sIn2).ulValue.take n))).1 ++
          (s sOut).ulValue.drop n := by
  have hPairs := map_range_pairs (h.trans_eq (s sIn).size.symm) (h.trans_eq (s sIn2).size.symm)
  rw [limbLoop_eq step sOut sIn sIn2 List.nodup_range
    fun i hi => (List.mem_range.mp hi).trans_le h]
  simp only [setLength_ulValue, hPairs]
  have hLength := length_stepLimbs step carry
    (((s sIn).ulValue.take n).zip ((s sIn2).ulValue.take n))
  rw [List.length_zip, List.length_take, List.length_take, (s sIn).size, (s sIn2).size,
    Nat.min_eq_left h, Nat.min_self] at hLength
  generalize stepLimbs step carry (((s sIn).ulValue.take n).zip ((s sIn2).ulValue.take n)) = result
    at hLength
  refine ⟨(setLength s sOut length sOut).puts (List.range n) result.1, ?_, ?_, ?_⟩
  · rw [setLength, Function.update_idem]
  · rw [SBigInt.iLength32_puts, setLength, Function.update_self]
    rfl
  · rw [List.range_eq_range', ← hLength, SBigInt.ulValue_puts_range' _ (by omega),
      setLength_ulValue]
    simp

/-- The loops that go down. -/
theorem limbLoop_reverse {σ : Type} (step : σ → UInt32 → UInt32 → UInt32 × σ) (sOut sIn : ρ)
    (carry : σ) (s : Objects ρ) {n : Nat} (h : n ≤ bigintMaxlen) (length : Nat) :
    ∃ (y : SBigInt) (last : σ),
      limbLoop step sOut sIn sIn (List.range n).reverse carry (setLength s sOut length) =
        .ok (last, Function.update s sOut y) ∧
      y.iLength32 = length ∧ y.ulValue = (stepLimbs step carry
        (((s sIn).ulValue.take n).reverse.zip ((s sIn).ulValue.take n).reverse)).1.reverse ++
          (s sOut).ulValue.drop n := by
  have hRange := map_range_getD (h.trans_eq (s sIn).size.symm)
  have hPairs : (List.range n).reverse.map
      (fun i => ((s sIn).ulValue.getD i 0, (s sIn).ulValue.getD i 0)) =
      ((s sIn).ulValue.take n).reverse.zip ((s sIn).ulValue.take n).reverse := by
    rw [← hRange, ← List.map_reverse, List.zip_map']
  rw [limbLoop_eq step sOut sIn sIn (List.nodup_reverse.mpr List.nodup_range)
    fun i hi => (List.mem_range.mp (List.mem_reverse.mp hi)).trans_le h]
  simp only [setLength_ulValue, hPairs]
  have hLength := length_stepLimbs step carry
    (((s sIn).ulValue.take n).reverse.zip ((s sIn).ulValue.take n).reverse)
  rw [List.length_zip, List.length_reverse, List.length_take, (s sIn).size, Nat.min_eq_left h,
    Nat.min_self] at hLength
  generalize stepLimbs step carry
    (((s sIn).ulValue.take n).reverse.zip ((s sIn).ulValue.take n).reverse) = result at hLength
  refine ⟨(setLength s sOut length sOut).puts (List.range n).reverse result.1, result.2, ?_, ?_, ?_⟩
  · rw [setLength, Function.update_idem]
  · rw [SBigInt.iLength32_puts, setLength, Function.update_self]
    rfl
  · rw [← hLength, SBigInt.ulValue_puts_reverse _ (by omega), setLength_ulValue]

/-- `Add_bigint` whichever of its pointers are the same. -/
theorem addBigintAt_eq (sOut sIn sIn2 : ρ) (s : Objects ρ)
    (h : max (s sIn).iLength32 (s sIn2).iLength32 < bigintMaxlen) :
    addBigintAt sOut sIn sIn2 s =
      (addBigint (s sIn) (s sIn2)).map (Function.update s sOut) := by
  have hMax : (if (s sIn).iLength32 < (s sIn2).iLength32 then (s sIn2).iLength32
      else (s sIn).iLength32) = max (s sIn).iLength32 (s sIn2).iLength32 := by
    split <;> omega
  unfold addBigintAt addBigint SBigInt.limbs
  simp only [hMax, if_pos h.le, ok_bind]
  generalize max (s sIn).iLength32 (s sIn2).iLength32 = length at h
  have hLength : (setLength s sOut length sOut).iLength32 = length := by
    rw [setLength, Function.update_self]
    rfl
  have hSame : ((s sIn).ulValue.take length).length = ((s sIn2).ulValue.take length).length := by
    rw [List.length_take, List.length_take, (s sIn).size, (s sIn2).size]
  obtain ⟨hSums, hCarry, -⟩ := Numeral.addLimbs_spec hSame (Nat.zero_le 1)
  obtain ⟨y, hLoop, hyLength, hyLimbs⟩ := limbLoop_range addStep sOut sIn sIn2 0 s h.le length
  rw [stepLimbs_addStep] at hLoop hyLimbs
  rw [hLength, hLoop, ok_bind]
  generalize addLimbs 0 ((s sIn).ulValue.take length) ((s sIn2).ulValue.take length) = result
    at hSums hCarry hyLimbs
  obtain ⟨sums, carry⟩ := result
  rw [List.length_take, (s sIn).size, Nat.min_eq_left h.le] at hSums
  dsimp only at hSums hCarry hyLimbs ⊢
  have hFits : (sums ++ [UInt32.ofNat carry]).length ≤ bigintMaxlen := by
    rw [List.length_append, hSums]
    exact h
  rw [store_eq _ _ h, ok_bind, SBigInt.ofLimbs, dif_pos hFits]
  simp only [Function.update_self, Function.update_idem, ok_bind, pure_eq_ok, Except.map]
  congr 2
  apply SBigInt.eq_of
  · rfl
  · have hOld : length < ((s sOut).ulValue).length := h.trans_eq (s sOut).size.symm
    simp only [SBigInt.clearAbove, SBigInt.withLength, SBigInt.put, hyLimbs, ← hSums] at h hOld ⊢
    rw [List.set_append_right _ _ (Nat.le_refl _), Nat.sub_self, List.drop_eq_getElem_cons hOld,
      List.set_cons_zero, List.take_append, List.take_of_length_le (Nat.le_add_right _ _),
      Nat.add_sub_cancel_left, List.length_append, List.length_singleton]
    interval_cases carry
    · have hRoom : bigintMaxlen - sums.length = bigintMaxlen - (sums.length + 1) + 1 := by omega
      simp [hRoom, List.replicate_succ]
    · simp

/-- A zero at the top is dropped, and the next limb is looked at. -/
theorem dropZeroTop_concat (limbs : List UInt32) (d : UInt32) :
    dropZeroTop (limbs ++ [d]) = if d = 0 then dropZeroTop limbs else .ok (limbs ++ [d]) := by
  unfold dropZeroTop
  rw [List.reverse_append, List.reverse_singleton, List.singleton_append]
  by_cases hZero : d = 0
  · rw [if_pos hZero, List.dropWhile_cons, if_pos (decide_eq_true hZero)]
  · rw [if_neg hZero, List.dropWhile_cons_of_neg (by simpa using hZero)]
    simp

/-- The loop over the length drops the zero limbs at the top. -/
theorem SBigInt.trimmed_eq (x : SBigInt) {length : Nat} (h : length ≤ bigintMaxlen) :
    x.trimmed length = (dropZeroTop (x.ulValue.take length)).map List.length ∧
      ∀ limbs, dropZeroTop (x.ulValue.take length) = .ok limbs →
        limbs = x.ulValue.take limbs.length ∧ limbs.length ≤ length := by
  induction length with
  | zero => exact ⟨rfl, fun limbs hNone => nomatch hNone⟩
  | succ length ih =>
      obtain ⟨ihLength, ihLimbs⟩ := ih (Nat.le_of_succ_le h)
      have hIndex : length < x.ulValue.length := h.trans_eq x.size.symm
      rw [trimmed, limb_eq x h, ok_bind, List.take_succ_eq_append_getElem hIndex,
        dropZeroTop_concat, List.getD_eq_getElem _ _ hIndex]
      split
      · refine ⟨ihLength, fun limbs hTop => ?_⟩
        obtain ⟨hSame, hLe⟩ := ihLimbs limbs hTop
        exact ⟨hSame, hLe.trans (Nat.le_succ length)⟩
      · have hTake : (x.ulValue.take length ++ [x.ulValue[length]]).length = length + 1 := by
          rw [List.length_append, List.length_take, Nat.min_eq_left hIndex.le,
            List.length_singleton]
        constructor
        · rw [Except.map, hTake]
          rfl
        · intro limbs hTop
          obtain rfl := Except.ok.inj hTop
          rw [hTake, List.take_succ_eq_append_getElem hIndex]
          exact ⟨rfl, Nat.le_refl _⟩

/-- `Sub_bigint` whichever of its pointers are the same. -/
theorem subBigintAt_eq (sOut sIn sIn2 : ρ) (s : Objects ρ)
    (h : (s sIn).iLength32 ≤ bigintMaxlen) :
    subBigintAt sOut sIn sIn2 s =
      (subBigint (s sIn) (s sIn2)).map (Function.update s sOut) := by
  unfold subBigintAt subBigint SBigInt.limbs
  cases cmp (s sIn) (s sIn2) with
  | error fault => rfl
  | ok order =>
      simp only [ok_bind, if_pos h]
      split
      · cases movLong 0 <;> rfl
      · have hLength : (setLength s sOut (s sIn).iLength32 sIn).iLength32 = (s sIn).iLength32 := by
          by_cases hr : sIn = sOut
          · rw [setLength, hr, Function.update_self]
            rfl
          · rw [setLength, Function.update_of_ne hr]
        obtain ⟨y, hLoop, hyLength, hyLimbs⟩ :=
          limbLoop_range subStep sOut sIn sIn2 0 s h (s sIn).iLength32
        have hSame : ((s sIn).ulValue.take (s sIn).iLength32).length =
            ((s sIn2).ulValue.take (s sIn).iLength32).length := by
          rw [List.length_take, List.length_take, (s sIn).size, (s sIn2).size]
        have hDifference := length_stepLimbs subStep 0
          (((s sIn).ulValue.take (s sIn).iLength32).zip ((s sIn2).ulValue.take (s sIn).iLength32))
        rw [List.length_zip, ← hSame, Nat.min_self, List.length_take, (s sIn).size,
          Nat.min_eq_left h] at hDifference
        rw [stepLimbs_subStep] at hyLimbs hDifference
        have hTake : y.ulValue.take (s sIn).iLength32 =
            subLimbs 0 ((s sIn).ulValue.take (s sIn).iLength32)
              ((s sIn2).ulValue.take (s sIn).iLength32) := by
          rw [hyLimbs, List.take_left' hDifference]
        obtain ⟨hTrimmed, hLimbs⟩ := y.trimmed_eq h
        rw [hTake] at hTrimmed hLimbs
        rw [hLength, hLoop, ok_bind]
        dsimp only
        rw [Function.update_self, hyLength, hTrimmed]
        cases hTop : dropZeroTop (subLimbs 0 ((s sIn).ulValue.take (s sIn).iLength32)
            ((s sIn2).ulValue.take (s sIn).iLength32)) with
        | error fault => rfl
        | ok limbs =>
            obtain ⟨hPart, hLe⟩ := hLimbs limbs hTop
            rw [Except.map, ok_bind, ok_bind, SBigInt.ofLimbs, dif_pos (hLe.trans h),
              Function.update_idem]
            congr 2
            apply SBigInt.eq_of
            · rfl
            · exact congrArg (· ++ List.replicate (bigintMaxlen - limbs.length) 0) hPart.symm

/-- A quotient of one limb. -/
theorem storeQuotient_eq (sOut sIn : ρ) (ulIn : Nat) (s : Objects ρ)
    (h : (s sIn).iLength32 = 1) :
    ((setLength s sOut (s sIn).iLength32 sIn).limb 0 >>= fun low =>
      store (setLength s sOut (s sIn).iLength32) sOut 0 (UInt32.ofNat (low.toNat / ulIn))) =
        ((s sIn).low >>= fun low =>
          (s sOut).withLimbs 1 [UInt32.ofNat (low.toNat / ulIn)]).map (Function.update s sOut) := by
  have hLow : (setLength s sOut (s sIn).iLength32 sIn).limb 0 = (s sIn).low := by
    rw [SBigInt.limb, setLength_ulValue]
    rfl
  rw [hLow]
  cases (s sIn).low with
  | error fault => rfl
  | ok low =>
      have hFits : [UInt32.ofNat (low.toNat / ulIn)].length ≤ bigintMaxlen := Nat.le_add_left 1 65
      rw [ok_bind, ok_bind, store_eq _ _ (by decide), SBigInt.withLimbs, dif_pos hFits,
        setLength, Function.update_idem, Function.update_self, h]
      simp only [Except.map]
      congr 2
      apply SBigInt.eq_of
      · rfl
      · exact (s sOut).ulValue_put_zero _

/-- A number loses a top limb of zero. -/
theorem shrink_reverse {top : UInt32} {rest : List UInt32} {length : Nat}
    (h : rest.length + 1 = length) :
    shrink length top =
      .ok (if top = 0 then rest.reverse else (top :: rest).reverse).length := by
  unfold shrink
  split
  · rw [List.length_reverse, List.length_cons, h]
  · next hZero =>
      rw [if_neg (by omega), if_pos (not_not.mp hZero), List.length_reverse, ← h,
        Nat.add_sub_cancel]

/-- `Div_long` whichever of its pointers are the same. -/
theorem divLongAt_eq (sOut sIn : ρ) (ulIn : Nat) (s : Objects ρ)
    (h : (s sIn).iLength32 ≤ bigintMaxlen) :
    divLongAt sOut sIn ulIn s =
      (divLong (s sOut) (s sIn) ulIn).map (Function.update s sOut) := by
  have hLength : (setLength s sOut (s sIn).iLength32 sIn).iLength32 = (s sIn).iLength32 := by
    by_cases hSame : sIn = sOut
    · rw [setLength, hSame, Function.update_self]
      rfl
    · rw [setLength, Function.update_of_ne hSame]
  unfold divLongAt divLong
  split
  · rfl
  · dsimp only
    rw [hLength]
    split
    · next hOne => exact storeQuotient_eq sOut sIn ulIn s hOne
    · obtain ⟨y, last, hLoop, hyLength, hyLimbs⟩ :=
        limbLoop_reverse (divStep ulIn) sOut sIn 0 s h (s sIn).iLength32
      rw [stepLimbs_divStep] at hyLimbs
      rw [hLoop, ok_bind, SBigInt.limbs, if_pos h, ok_bind]
      dsimp only
      rw [Function.update_self, hyLength]
      have hQuotients : (divLimbs ulIn 0 ((s sIn).ulValue.take (s sIn).iLength32).reverse).length =
          (s sIn).iLength32 := by
        rw [← stepLimbs_divStep, length_stepLimbs, List.length_zip, List.length_reverse,
          List.length_take, (s sIn).size, Nat.min_eq_left h, Nat.min_self]
      revert hQuotients hyLimbs
      cases divLimbs ulIn 0 ((s sIn).ulValue.take (s sIn).iLength32).reverse with
      | nil =>
          intro _ hNone
          rw [SBigInt.fromTop, if_neg (by rw [hyLength, ← hNone]; decide)]
          rfl
      | cons top rest =>
          intro hyLimbs hQuotients
          rw [List.reverse_cons] at hyLimbs
          rw [List.length_cons] at hQuotients
          have hTop : y.fromTop 1 = .ok top := by
            rw [SBigInt.fromTop, if_pos (by omega), hyLength, hyLimbs, ← hQuotients,
              Nat.add_sub_cancel, List.append_assoc, List.getElem?_append_right (by simp)]
            simp [inBounds]
          have hFits : (if top = 0 then rest.reverse else (top :: rest).reverse).length ≤
              bigintMaxlen := by
            split
            · rw [List.length_reverse]
              omega
            · rw [List.length_reverse, List.length_cons]
              omega
          rw [hTop, ok_bind, shrink_reverse hQuotients, ok_bind]
          dsimp only
          rw [SBigInt.ofLimbs, dif_pos hFits, Except.map, Function.update_idem]
          congr 2
          apply SBigInt.eq_of
          · rfl
          · change y.ulValue.take _ ++ _ = _ ++ _
            congr 1
            split
            · rw [hyLimbs, List.append_assoc]
              exact List.take_left
            · rw [List.reverse_cons, hyLimbs]
              exact List.take_left

theorem length_carryUp_le {i : Nat} {limbs stored : List UInt32} {last : Nat}
    (h : carryUp i limbs = .ok (stored, last)) : stored.length ≤ limbs.length := by
  induction limbs generalizing i stored last with
  | nil => cases h
  | cons d rest ih =>
      rw [carryUp] at h
      split at h
      · obtain ⟨⟨later, index⟩, hRest, hStored⟩ := bind_eq_ok.mp h
        obtain ⟨rfl, rfl⟩ := Prod.mk.inj (Except.ok.inj hStored)
        exact Nat.succ_le_succ (ih hRest)
      · obtain ⟨rfl, rfl⟩ := Prod.mk.inj (Except.ok.inj h)
        exact Nat.succ_le_succ (Nat.zero_le _)

/-- The loop that carries into the output reads the same limbs, be the
output the input or not: what it has still to read has not been written yet. -/
theorem carryAt_eq (sOut sIn : ρ) {fuel i : Nat} (hFuel : bigintMaxlen ≤ fuel + i)
    (s : Objects ρ) (hSame : (s sOut).ulValue.drop i = (s sIn).ulValue.drop i) :
    carryAt sOut sIn fuel i s = (carryUp i ((s sIn).ulValue.drop i)).map fun r =>
      (r.2, Function.update s sOut ((s sOut).puts (List.range' i r.1.length) r.1)) := by
  induction fuel generalizing i s with
  | zero =>
      rw [List.drop_eq_nil_of_le ((s sIn).size.trans_le (by omega))]
      rfl
  | succ fuel ih =>
      rw [carryAt]
      by_cases hi : i < bigintMaxlen
      · have hIndex : i < (s sIn).ulValue.length := hi.trans_eq (s sIn).size.symm
        have hIndexOut : i < (s sOut).ulValue.length := hi.trans_eq (s sOut).size.symm
        rw [List.drop_eq_getElem_cons hIndex, List.drop_eq_getElem_cons hIndexOut] at hSame
        obtain ⟨hLimb, hRest⟩ := List.cons.inj hSame
        rw [SBigInt.limb_eq _ hi, ok_bind, SBigInt.limb_eq _ hi, ok_bind,
          List.drop_eq_getElem_cons hIndex, carryUp, List.getD_eq_getElem _ _ hIndex,
          List.getD_eq_getElem _ _ hIndexOut, hLimb]
        split
        · have hKept (r : ρ) (hr : r = sOut ∨ r = sIn) :
              (Function.update s sOut ((s sOut).put i 0) r).ulValue.drop (i + 1) =
                (s r).ulValue.drop (i + 1) := by
            by_cases hOut : r = sOut
            · rw [hOut, Function.update_self]
              exact List.drop_set_of_lt (Nat.lt_succ_self i)
            · rw [Function.update_of_ne hOut]
          rw [store_eq _ _ hi, ok_bind, ih (by omega) _ (by
            rw [hKept sOut (Or.inl rfl), hKept sIn (Or.inr rfl), hRest]),
            hKept sIn (Or.inr rfl)]
          cases carryUp (i + 1) ((s sIn).ulValue.drop (i + 1)) with
          | error fault => rfl
          | ok r =>
              simp only [Except.map, ok_bind, pure_eq_ok, Function.update_self,
                Function.update_idem, List.length_cons, List.range'_succ, SBigInt.puts]
        · rw [store_eq _ _ hi]
          rfl
      · rw [List.drop_eq_nil_of_le ((s sIn).size.trans_le (Nat.not_lt.mp hi)), SBigInt.limb,
          List.getElem?_eq_none ((s sIn).size.trans_le (Nat.not_lt.mp hi))]
        rfl

/-- `Add_long` whichever of its pointers are the same. -/
theorem addLongAt_eq (sOut sIn : ρ) (ulIn : Nat) (s : Objects ρ) :
    addLongAt sOut sIn ulIn s = (addLong (s sIn) ulIn).map (Function.update s sOut) := by
  have hCopy : Function.update s sOut (s sIn) sIn = s sIn := by
    by_cases hSame : sIn = sOut
    · rw [hSame, Function.update_self]
    · rw [Function.update_of_ne hSame]
  have hLow : (s sIn).limb 0 = (s sIn).low := rfl
  unfold addLongAt addLong
  dsimp only
  rw [hCopy, hLow]
  cases (s sIn).low with
  | error fault => rfl
  | ok low =>
      simp only [ok_bind]
      generalize (low.toNat + ulIn) % 2 ^ 64 = sum
      have hBehind (k : Nat) : ((s sIn).put 0 (UInt32.ofNat sum)).ulValue.drop (k + 1) =
          (s sIn).ulValue.drop (k + 1) := List.drop_set_of_lt (Nat.succ_pos k)
      rw [store_eq _ _ (by decide), ok_bind, Function.update_self, Function.update_idem]
      split
      · have hSame (r : ρ) (hr : r = sOut ∨ r = sIn) :
            (Function.update s sOut ((s sIn).put 0 (UInt32.ofNat sum)) r).ulValue.drop 1 =
              (s sIn).ulValue.drop 1 := by
          by_cases hOut : r = sOut
          · rw [hOut, Function.update_self]
            exact hBehind 0
          · rw [Function.update_of_ne hOut, hr.resolve_left hOut]
        rw [carryAt_eq sOut sIn (by decide) _
          ((hSame sOut (Or.inl rfl)).trans (hSame sIn (Or.inr rfl)).symm), hSame sIn (Or.inr rfl)]
        cases hCarry : carryUp 1 ((s sIn).ulValue.drop 1) with
        | error fault => rfl
        | ok r =>
            obtain ⟨limbs, last⟩ := r
            have hRoom := length_carryUp_le hCarry
            rw [List.length_drop, (s sIn).size, bigintMaxlen] at hRoom
            have hFits : (UInt32.ofNat sum :: limbs).length ≤ bigintMaxlen := by
              rw [List.length_cons, bigintMaxlen]
              omega
            simp only [Except.map, ok_bind, SBigInt.withLimbs, dif_pos hFits, Function.update_self,
              Function.update_idem, SBigInt.iLength32_puts]
            have hLimbs : (((s sIn).put 0 (UInt32.ofNat sum)).puts (List.range' 1 limbs.length)
                limbs).ulValue =
                UInt32.ofNat sum :: limbs ++ (s sIn).ulValue.drop (limbs.length + 1) := by
              rw [SBigInt.ulValue_puts_range' _ (by rw [bigintMaxlen]; omega), Nat.add_comm 1,
                hBehind, SBigInt.ulValue_put_zero]
              rfl
            have hStill : ((s sIn).put 0 (UInt32.ofNat sum)).iLength32 = (s sIn).iLength32 := rfl
            rw [hStill]
            split
            · rw [setLength, Function.update_idem, Function.update_self]
              simp only [pure_eq_ok]
              congr 2
              exact SBigInt.eq_of rfl hLimbs
            · simp only [pure_eq_ok]
              congr 2
              exact SBigInt.eq_of (SBigInt.iLength32_puts _ _ _) hLimbs
      · have hFits : [UInt32.ofNat sum].length ≤ bigintMaxlen := Nat.le_add_left 1 65
        rw [SBigInt.withLimbs, dif_pos hFits, Except.map, pure_eq_ok]
        congr 2
        exact SBigInt.eq_of rfl ((s sIn).ulValue_put_zero _)

end SignImage
