import Mathlib.Data.List.Basic
import Mathlib.Data.List.Induction

/-! Sampling a stream: every so many elements one is left out, and what is
left is cut into windows of one length. -/
namespace Sampling

variable {α β : Type*}

/-- Without the elements at the multiples of `m`, counted from one. -/
def skipEvery (m : Nat) (stream : List α) : List α :=
  ((stream.zipIdx 1).filter fun x => x.2 % m ≠ 0).map Prod.fst

/-- The windows of `n` elements that are full. -/
def windows (n : Nat) (stream : List α) : List (List α) :=
  (List.range (stream.length / n)).map fun k => (stream.drop (k * n)).take n

/-- The elements behind the last full window. -/
def rest (n : Nat) (stream : List α) : List α := stream.drop (stream.length / n * n)

@[simp] theorem skipEvery_nil (m : Nat) : skipEvery m ([] : List α) = [] := rfl

/-- The element that comes last is skipped if its number is a multiple. -/
theorem skipEvery_append_singleton (m : Nat) (stream : List α) (x : α) :
    skipEvery m (stream ++ [x]) =
      if (stream.length + 1) % m ≠ 0 then skipEvery m stream ++ [x] else skipEvery m stream := by
  unfold skipEvery
  rw [List.zipIdx_append, List.filter_append, List.map_append]
  by_cases hSkip : (stream.length + 1) % m = 0 <;> simp [hSkip, Nat.add_comm 1]

theorem mem_of_mem_skipEvery {m : Nat} {stream : List α} {x : α} (h : x ∈ skipEvery m stream) :
    x ∈ stream := by
  induction stream using List.reverseRecOn with
  | nil => cases h
  | append_singleton stream y ih =>
      rw [skipEvery_append_singleton] at h
      split at h
      · rcases List.mem_append.mp h with hMem | hLast
        · exact List.mem_append_left [y] (ih hMem)
        · exact List.mem_append_right stream hLast
      · exact List.mem_append_left [y] (ih h)

theorem length_skipEvery (m : Nat) (stream : List α) :
    (skipEvery m stream).length + stream.length / m = stream.length := by
  induction stream using List.reverseRecOn with
  | nil => simp
  | append_singleton stream x ih =>
      rw [skipEvery_append_singleton, List.length_append, List.length_singleton, Nat.succ_div]
      by_cases hDvd : m ∣ stream.length + 1
      · rw [if_neg (not_not.mpr (Nat.mod_eq_zero_of_dvd hDvd)), if_pos hDvd]
        omega
      · rw [if_pos fun hMod => hDvd (Nat.dvd_of_mod_eq_zero hMod), if_neg hDvd,
          List.length_append, List.length_singleton]
        omega

/-- Of equal elements it does not matter which ones are skipped. -/
theorem skipEvery_replicate (m n : Nat) (x : α) :
    skipEvery m (List.replicate n x) = List.replicate (n - n / m) x := by
  have hLength := length_skipEvery m (List.replicate n x)
  rw [List.length_replicate] at hLength
  refine List.eq_replicate_iff.mpr ⟨by omega, fun y hy => ?_⟩
  exact List.eq_of_mem_replicate (mem_of_mem_skipEvery hy)

theorem length_rest (n : Nat) (stream : List α) :
    (rest n stream).length = stream.length % n := by
  rw [rest, List.length_drop, Nat.mul_comm, Nat.mod_eq_sub_mul_div]

@[simp] theorem rest_nil (n : Nat) : rest n ([] : List α) = [] := List.drop_nil

@[simp] theorem windows_nil (n : Nat) : windows n ([] : List α) = [] := by
  simp [windows]

theorem windows_map (n : Nat) (f : α → β) (stream : List α) :
    windows n (stream.map f) = (windows n stream).map (List.map f) := by
  simp [windows, List.map_take, List.map_drop, Function.comp_def]

theorem succ_div_eq {n : Nat} (hn : 0 < n) (length : Nat) :
    (length + 1) / n = if length % n + 1 = n then length / n + 1 else length / n := by
  have hMod := Nat.mod_lt length hn
  have hSplit := Nat.div_add_mod length n
  rw [Nat.mul_comm] at hSplit
  split
  · next hFull =>
      apply Nat.div_eq_of_lt_le
      · rw [Nat.succ_mul]
        omega
      · rw [Nat.succ_mul, Nat.succ_mul]
        omega
  · apply Nat.div_eq_of_lt_le
    · omega
    · rw [Nat.succ_mul]
      omega

/-- An element closes the window that it fills. -/
theorem rest_append_singleton {n : Nat} (hn : 0 < n) (stream : List α) (x : α) :
    rest n (stream ++ [x]) =
      if (rest n stream).length + 1 = n then [] else rest n stream ++ [x] := by
  have hSplit := Nat.div_add_mod stream.length n
  rw [Nat.mul_comm] at hSplit
  rw [length_rest, rest, List.length_append, List.length_singleton, succ_div_eq hn]
  split
  · rw [List.drop_eq_nil_iff, List.length_append, List.length_singleton, Nat.succ_mul]
    omega
  · rw [List.drop_append_of_le_length (Nat.div_mul_le_self _ _)]
    rfl

/-- One more element fills the window that waits, or waits with it. -/
theorem windows_append_singleton {n : Nat} (hn : 0 < n) (stream : List α) (x : α) :
    windows n (stream ++ [x]) =
      if (rest n stream).length + 1 = n then windows n stream ++ [rest n stream ++ [x]]
      else windows n stream := by
  have hOld : (List.range (stream.length / n)).map
      (fun k => ((stream ++ [x]).drop (k * n)).take n) = windows n stream := by
    refine List.map_congr_left fun k hk => ?_
    have hBelow : (k + 1) * n ≤ stream.length :=
      Nat.le_trans (Nat.mul_le_mul_right n (List.mem_range.mp hk)) (Nat.div_mul_le_self _ _)
    rw [Nat.succ_mul] at hBelow
    rw [List.drop_append_of_le_length (by omega), List.take_append_of_le_length]
    rw [List.length_drop]
    omega
  rw [length_rest, windows, List.length_append, List.length_singleton, succ_div_eq hn]
  split
  · next hFull =>
      have hLast : ((stream ++ [x]).drop (stream.length / n * n)).take n =
          rest n stream ++ [x] := by
        rw [List.drop_append_of_le_length (Nat.div_mul_le_self _ _), ← rest]
        apply List.take_of_length_le
        rw [List.length_append, length_rest, List.length_singleton]
        omega
      rw [List.range_succ, List.map_append, hOld, List.map_singleton, hLast]
  · exact hOld

/-- As many elements as a window takes. -/
theorem windows_replicate {n : Nat} (hn : 0 < n) (x : α) :
    windows n (List.replicate n x) = [List.replicate n x] := by
  simp [windows, Nat.div_self hn]

theorem rest_of_lt {n : Nat} {stream : List α} (h : stream.length < n) : rest n stream = stream := by
  rw [rest, Nat.div_eq_of_lt h, Nat.zero_mul, List.drop_zero]

theorem windows_of_lt {n : Nat} {stream : List α} (h : stream.length < n) :
    windows n stream = [] := by
  rw [windows, Nat.div_eq_of_lt h]
  rfl

/-- The first window of a stream that fills one. -/
theorem windows_of_le {n : Nat} {stream : List α} (hn : 0 < n) (h : n ≤ stream.length) :
    windows n stream = stream.take n :: windows n (stream.drop n) := by
  have hCount : stream.length / n = (stream.length - n) / n + 1 := by
    rw [← Nat.succ_eq_add_one, Nat.div_eq_sub_div hn h]
  rw [windows, hCount, List.range_succ_eq_map, List.map_cons, List.map_map, windows,
    List.length_drop, Nat.zero_mul, List.drop_zero]
  congr 1
  refine List.map_congr_left fun k _ => ?_
  rw [Function.comp_apply, List.drop_drop, Nat.succ_mul, Nat.add_comm]

/-- A full window at the start does not change what waits at the end. -/
theorem rest_of_le {n : Nat} {stream : List α} (hn : 0 < n) (h : n ≤ stream.length) :
    rest n stream = rest n (stream.drop n) := by
  have hCount : stream.length / n = (stream.length - n) / n + 1 := by
    rw [← Nat.succ_eq_add_one, Nat.div_eq_sub_div hn h]
  rw [rest, rest, hCount, List.length_drop, List.drop_drop, Nat.succ_mul, Nat.add_comm]

theorem length_rest_lt {n : Nat} (hn : 0 < n) (stream : List α) : (rest n stream).length < n := by
  rw [length_rest]
  exact Nat.mod_lt _ hn

@[simp] theorem length_windows (n : Nat) (stream : List α) :
    (windows n stream).length = stream.length / n := by
  rw [windows, List.length_map, List.length_range]

theorem length_of_mem_windows {n : Nat} {stream window : List α} (h : window ∈ windows n stream) :
    window.length = n := by
  obtain ⟨k, hk, rfl⟩ := List.mem_map.mp h
  have hBelow : (k + 1) * n ≤ stream.length :=
    Nat.le_trans (Nat.mul_le_mul_right n (List.mem_range.mp hk)) (Nat.div_mul_le_self _ _)
  rw [Nat.succ_mul] at hBelow
  rw [List.length_take, List.length_drop]
  omega

/-- A stream is read in two parts: the full windows of the first, and then
what was left of it with the second. -/
theorem append_windows {n : Nat} (hn : 0 < n) (first second : List α) :
    windows n (first ++ second) = windows n first ++ windows n (rest n first ++ second) ∧
      rest n (first ++ second) = rest n (rest n first ++ second) := by
  induction hLength : first.length using Nat.strongRecOn generalizing first with
  | ind length ih =>
      by_cases hFull : n ≤ first.length
      · have hBoth : n ≤ (first ++ second).length := by
          rw [List.length_append]
          omega
        obtain ⟨hWindows, hRest⟩ := ih (first.drop n).length
          (by rw [List.length_drop]; omega) (first.drop n) rfl
        rw [windows_of_le hn hBoth, rest_of_le hn hBoth, windows_of_le hn hFull,
          rest_of_le hn hFull, List.take_append_of_le_length hFull,
          List.drop_append_of_le_length hFull, hWindows, hRest]
        exact ⟨rfl, rfl⟩
      · have hShort : first.length < n := Nat.lt_of_not_le hFull
        rw [windows_of_lt hShort, rest_of_lt hShort]
        exact ⟨rfl, rfl⟩

/-- The windows of two parts are those of the first and, with what has
waited, those of the second. -/
theorem windows_append {n : Nat} (hn : 0 < n) (first second : List α) :
    windows n (first ++ second) = windows n first ++ windows n (rest n first ++ second) :=
  (append_windows hn first second).1

/-- What waits in the end depends on what has waited and on the second part. -/
theorem rest_append {n : Nat} (hn : 0 < n) (first second : List α) :
    rest n (first ++ second) = rest n (rest n first ++ second) :=
  (append_windows hn first second).2

/-- The windows and the rest are the whole stream. -/
theorem flatten_windows {n : Nat} (hn : 0 < n) (stream : List α) :
    (windows n stream).flatten ++ rest n stream = stream := by
  induction hLength : stream.length using Nat.strongRecOn generalizing stream with
  | ind length ih =>
      by_cases hFull : n ≤ stream.length
      · rw [windows_of_le hn hFull, rest_of_le hn hFull, List.flatten_cons, List.append_assoc,
          ih (stream.drop n).length (by rw [List.length_drop]; omega) _ rfl,
          List.take_append_drop]
      · rw [windows_of_lt (Nat.lt_of_not_le hFull), rest_of_lt (Nat.lt_of_not_le hFull)]
        rfl

/-- A stream without a rest is what its windows say. -/
theorem eq_of_windows_eq {n : Nat} (hn : 0 < n) {stream other : List α}
    (hStream : stream.length % n = 0) (hOther : other.length % n = 0)
    (h : windows n stream = windows n other) : stream = other := by
  have hNone (s : List α) (hs : s.length % n = 0) : rest n s = [] :=
    List.eq_nil_of_length_eq_zero ((length_rest n s).trans hs)
  rw [← flatten_windows hn stream, ← flatten_windows hn other, h, hNone stream hStream,
    hNone other hOther]

end Sampling
