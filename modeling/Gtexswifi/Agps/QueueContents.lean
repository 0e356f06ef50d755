import Gtexswifi.Agps.WorkQueue
import Gtexswifi.Library.Transition
import Mathlib.Data.List.Nodup

/-! The work queues against lists: what every sequence of calls returns and
leaves. -/
namespace Agps.Queues

open LinkedNodes LinkedItems Transition

variable {ι α δ : Type}

def addresses (chain : List (α × δ)) : List α := chain.map Prod.fst

/-- The links of a queue lead through the items of a list, each once, and
`tail` to the last. -/
structure Holds (items : Items α δ) (queue : WorkQueue α) (chain : List (α × δ)) : Prop where
  head : queue.head = entry chain none
  tail : queue.tail = exit none chain
  chained : Chained items chain none
  nodup : (addresses chain).Nodup
  count : chain ≠ [] → chain.length ≤ queue.itemCount

variable {items items' : Items α δ} {queue : WorkQueue α} {chain front back : List (α × δ)}
  {a b : α} {data : δ} {i : ι}

theorem Holds.frame (h : Holds items queue chain)
    (hSame : ∀ a ∈ addresses chain, items' a = items a) : Holds items' queue chain :=
  { h with chained := h.chained.frame hSame }

/-- The last item of a chain is the one behind which the chain ends. -/
theorem exit_concat (before : Option α) (front : List (α × δ)) (a : α) (data : δ) :
    exit before (front ++ [(a, data)]) = some a := by
  rw [exit_append]
  rfl

@[simp] theorem addresses_append (front back : List (α × δ)) :
    addresses (front ++ back) = addresses front ++ addresses back := List.map_append

@[simp] theorem addresses_cons (a : α) (data : δ) (back : List (α × δ)) :
    addresses ((a, data) :: back) = a :: addresses back := rfl

theorem entry_ne_none (h : chain ≠ []) : entry chain (none : Option α) ≠ none := by
  cases chain with
  | nil => exact absurd rfl h
  | cons e chain => exact Option.some_ne_none _

theorem mem_of_exit {before : Option α} {e : α × δ} (h : exit before (e :: chain) = some a) :
    a ∈ addresses (e :: chain) := by
  induction chain generalizing before e with
  | nil => exact Option.some.inj h ▸ List.mem_singleton_self e.1
  | cons e' chain ih =>
      have hRest : exit (some e.1) (e' :: chain) = some a := h
      exact List.mem_cons_of_mem _ (ih hRest)

section Calls

variable [DecidableEq ι] [DecidableEq α] {s : State ι α δ}

/-- An item is linked behind the others. -/
theorem linkLast_holds (h : Holds items queue chain) (hAway : a ∉ addresses chain) (data : δ) :
    ∃ items' queue', linkLast (items.put a ⟨none, data⟩) queue a = some (items', queue') ∧
      Holds items' queue' (chain ++ [(a, data)]) ∧ items' a = some ⟨none, data⟩ ∧
      ∀ b, b ∉ addresses chain → b ≠ a → items' b = items b := by
  have hPut : Chained (items.put a ⟨none, data⟩) [(a, data)] none := ⟨Items.put_self .., trivial⟩
  have hNodup : (addresses (chain ++ [(a, data)])).Nodup := by
    rw [addresses_append]
    exact List.nodup_append_comm.mp (List.nodup_cons.mpr ⟨hAway, h.nodup⟩)
  rw [linkLast, h.head, h.tail]
  rcases List.eq_nil_or_concat chain with rfl | ⟨front, ⟨last, other⟩, hChain⟩
  · refine ⟨_, _, if_pos rfl, ⟨rfl, rfl, hPut, hNodup, fun _ => Nat.le_refl 1⟩,
      Items.put_self .., ?_⟩
    exact fun b _ hb => Items.put_of_ne hb
  · rw [List.concat_eq_append] at hChain
    have hSome : chain ≠ [] := by simp [hChain]
    have hLast : last ∉ front.map Prod.fst := by
      have hFront := h.nodup
      rw [hChain, addresses_append] at hFront
      exact (List.nodup_cons.mp (List.nodup_append_comm.mp hFront)).1
    have hNe : last ≠ a := by
      rintro rfl
      simp [hChain] at hAway
    have hBefore : Chained (items.put a ⟨none, data⟩) chain none := h.chained.put hAway
    rw [hChain] at hBefore
    obtain ⟨hSet, hChained⟩ := hBefore.relink (q := some a) hLast
    rw [if_neg (entry_ne_none hSome), hChain, exit_concat, hSet, ← hChain]
    refine ⟨_, _, rfl, ⟨?_, (exit_concat ..).symm, ?_, hNodup, ?_⟩, ?_, fun b hb hba => ?_⟩
    · cases chain with
      | nil => exact absurd rfl hSome
      | cons e chain => rfl
    · rw [hChain]
      refine chained_append.mpr ⟨hChained, ?_, trivial⟩
      rw [Items.put_of_ne hNe.symm, Items.put_self]
      rfl
    · intro _
      simpa using h.count hSome
    · rw [Items.put_of_ne hNe.symm, Items.put_self]
    · rw [Items.put_of_ne, Items.put_of_ne hba]
      rintro rfl
      simp [hChain] at hb

/-- Nothing is taken from an empty queue, which gives a null pointer. -/
theorem workQueuePop_empty (h : Holds s.items (s.queues i) []) :
    workQueuePop s (some i) = some s.null := by
  rw [workQueuePop, h.head]
  rfl

/-- The first item is taken. -/
theorem workQueuePop_eq (h : Holds s.items (s.queues i) ((a, data) :: chain)) :
    ∃ queue, workQueuePop s (some i) = some { s with
        items := s.items.release a
        queues := Function.update s.queues i queue
        log := s.log ++ [.popped i data] } ∧
      Holds (s.items.release a) queue chain := by
  have hHead : (s.queues i).head = some a := h.head
  obtain ⟨hAway, hNodup⟩ := List.nodup_cons.mp h.nodup
  rw [workQueuePop, hHead]
  simp only [h.chained.1, Option.bind_eq_bind, Option.bind_some]
  refine ⟨_, rfl, rfl, ?_, h.chained.2.release hAway, hNodup, fun hSome => ?_⟩
  · rw [h.tail]
    cases chain with
    | nil => rfl
    | cons e chain => rfl
  · exact Nat.le_trans (Nat.le_succ _) (h.count (List.cons_ne_nil _ _))

/-- The loop of `work_queue_delete` stops at the item, with the one in front
of it. -/
theorem locate_mem {passes : Nat} (prev : α)
    (h : Chained items (front ++ (a, data) :: back) none) (hFirst : a ∉ addresses front)
    (hPasses : front.length < passes) :
    ∃ p, exit (some prev) front = some p ∧
      locate items a passes prev (entry (front ++ (a, data) :: back) none) = some (p, some a) := by
  induction front generalizing passes prev with
  | nil =>
      obtain ⟨passes, rfl⟩ := Nat.exists_eq_succ_of_ne_zero (Nat.ne_of_gt hPasses)
      refine ⟨prev, rfl, ?_⟩
      rw [List.nil_append, entry, locate, if_pos rfl]
  | cons e front ih =>
      obtain ⟨b, other⟩ := e
      obtain ⟨passes, rfl⟩ :=
        Nat.exists_eq_succ_of_ne_zero (Nat.ne_of_gt (Nat.zero_lt_of_lt hPasses))
      rw [addresses_cons, List.mem_cons, not_or] at hFirst
      obtain ⟨p, hExit, hLocate⟩ := ih b h.2 hFirst.2 (Nat.lt_of_succ_lt_succ hPasses)
      refine ⟨p, hExit, ?_⟩
      rw [List.cons_append, entry, locate, if_neg (Ne.symm hFirst.1), h.1]
      exact hLocate

/-- It goes through the whole queue for an item that is not there. -/
theorem locate_not_mem {passes : Nat} (prev : α) (h : Chained items chain none)
    (hAway : a ∉ addresses chain) (hPasses : chain.length ≤ passes) :
    ∃ p, locate items a passes prev (entry chain none) = some (p, none) := by
  induction chain generalizing passes prev with
  | nil => exact ⟨prev, by rw [entry, locate]⟩
  | cons e chain ih =>
      obtain ⟨b, other⟩ := e
      obtain ⟨passes, rfl⟩ :=
        Nat.exists_eq_succ_of_ne_zero (Nat.ne_of_gt (Nat.zero_lt_of_lt hPasses))
      rw [addresses_cons, List.mem_cons, not_or] at hAway
      obtain ⟨p, hLocate⟩ := ih b h.2 hAway.2 (Nat.le_of_succ_le_succ hPasses)
      refine ⟨p, ?_⟩
      rw [entry, locate, if_neg (Ne.symm hAway.1), h.1]
      exact hLocate

/-- An item of the queue is taken out, wherever it stands. -/
theorem workQueueDelete_mem (h : Holds s.items (s.queues i) (front ++ (a, data) :: back))
    (hPasses : (front ++ (a, data) :: back).length ≤ s.mallocs) :
    ∃ (items : Items α δ) (queue : WorkQueue α),
      workQueueDelete s (some i) (some a) = some { s with
        items := items.release a
        queues := Function.update s.queues i queue
        log := s.log ++ [.deleted i a data] } ∧
      Holds (items.release a) queue (front ++ back) ∧
      ∀ b, b ∉ addresses front → items b = s.items b := by
  have hItem := h.chained.item
  have hNodup := h.nodup
  rw [addresses_append, addresses_cons, List.nodup_middle, List.nodup_cons] at hNodup
  obtain ⟨hAway, hNodup⟩ := hNodup
  rw [← addresses_append] at hAway hNodup
  have hCount : front ++ back ≠ [] → (front ++ back).length ≤ (s.queues i).itemCount := by
    intro _
    have hAll := h.count (List.append_ne_nil_of_right_ne_nil _ (List.cons_ne_nil _ _))
    rw [List.length_append, List.length_cons] at hAll
    rw [List.length_append]
    omega
  have hFirst : a ∉ addresses front := fun hMem => hAway (by simp [hMem])
  cases front with
  | nil =>
      have hHead : (s.queues i).head = some a := h.head
      simp only [workQueueDelete, hHead, hItem, Option.bind_eq_bind, Option.bind_some, if_pos]
      refine ⟨s.items, _, rfl, ⟨rfl, ?_, h.chained.2.release hAway, hNodup, hCount⟩, fun _ _ => rfl⟩
      rw [h.tail]
      cases back with
      | nil => rfl
      | cons e back => rfl
  | cons e rest =>
      obtain ⟨first, e⟩ := e
      obtain ⟨front, ⟨prev, other⟩, hFront⟩ :=
        (List.eq_nil_or_concat ((first, e) :: rest)).resolve_left (List.cons_ne_nil _ _)
      rw [List.concat_eq_append] at hFront
      have hHead : (s.queues i).head = some first := h.head
      have hNe : first ≠ a := by
        rintro rfl
        exact hFirst List.mem_cons_self
      have hLast : exit (some first) rest = some prev := by
        rw [← exit_concat none front prev other, ← hFront]
        rfl
      have hRoom : rest.length < s.mallocs := by
        simp only [List.length_append, List.length_cons] at hPasses
        omega
      obtain ⟨p, hExit, hLocate⟩ := locate_mem first h.chained.2
        (fun hMem => hFirst (List.mem_cons_of_mem _ hMem)) hRoom
      obtain rfl : p = prev := Option.some.inj (hExit.symm.trans hLast)
      have hChained := h.chained
      have hAll := h.nodup
      rw [hFront, List.append_assoc, List.singleton_append] at hChained hAll
      obtain ⟨hSet, hUnlinked⟩ := hChained.unlink hAll
      have hFirstItem : s.items first = some ⟨entry (rest ++ (a, data) :: back) none, e⟩ :=
        h.chained.1
      have hRest : (first, e) :: rest ++ back = front ++ (p, other) :: back := by
        rw [hFront, List.append_assoc, List.singleton_append]
      simp only [workQueueDelete, hHead, hItem, hFirstItem, Option.bind_eq_bind, Option.bind_some,
        if_neg hNe, hLocate, hSet]
      refine ⟨_, _, rfl, ⟨rfl, ?_, ?_, hNodup, hCount⟩, fun b hb => Items.put_of_ne ?_⟩
      · have hTail : (s.queues i).tail = exit (some a) back := by
          rw [h.tail, exit_append]
          rfl
        have hNew : exit none ((first, e) :: rest ++ back) = exit (some p) back := by
          rw [exit_append]
          exact congrArg (exit · back) hLast
        rw [if_neg (Option.some_ne_none _), hTail, hNew]
        cases back with
        | nil => exact if_pos rfl
        | cons e back =>
            refine if_neg fun hSame => hAway ?_
            rw [addresses_append, List.mem_append]
            exact Or.inr (mem_of_exit hSame)
      · rw [hRest]
        exact hUnlinked.release (hRest ▸ hAway)
      · rintro rfl
        rw [hFront] at hb
        simp at hb

/-- An item that is in memory and not in the queue is searched for in vain. -/
theorem workQueueDelete_not_mem (h : Holds s.items (s.queues i) chain)
    (hPasses : chain.length ≤ s.mallocs) (hLive : (s.items a).isSome)
    (hAway : a ∉ addresses chain) :
    workQueueDelete s (some i) (some a) = some s.null := by
  obtain ⟨item, hItem⟩ := Option.isSome_iff_exists.mp hLive
  cases chain with
  | nil =>
      have hHead : (s.queues i).head = none := h.head
      simp only [workQueueDelete, hHead]
  | cons e rest =>
      obtain ⟨first, e⟩ := e
      have hHead : (s.queues i).head = some first := h.head
      have hFirstItem : s.items first = some ⟨entry rest none, e⟩ := h.chained.1
      rw [addresses_cons, List.mem_cons, not_or] at hAway
      obtain ⟨p, hLocate⟩ := locate_not_mem first h.chained.2 hAway.2
        (Nat.le_of_succ_le hPasses)
      simp only [workQueueDelete, hHead, hItem, hFirstItem, Option.bind_eq_bind, Option.bind_some,
        if_neg (Ne.symm hAway.1), hLocate]

/-- So is one of an empty queue, in memory or not. -/
theorem workQueueDelete_empty (h : Holds s.items (s.queues i) []) :
    workQueueDelete s (some i) (some a) = some s.null := by
  have hHead : (s.queues i).head = none := h.head
  simp only [workQueueDelete, hHead]

/-- An item that has been freed is read before the queue is searched. -/
theorem workQueueDelete_freed (h : Holds s.items (s.queues i) chain) (hSome : chain ≠ [])
    (hFreed : s.items a = none) : workQueueDelete s (some i) (some a) = none := by
  obtain ⟨first, hHead⟩ := Option.ne_none_iff_exists'.mp (entry_ne_none hSome)
  rw [← h.head] at hHead
  simp only [workQueueDelete, hHead, hFreed, Option.bind_eq_bind, Option.bind_none]

end Calls

/-- The queues as lists of the items that wait in them. -/
structure Contents (ι α δ : Type) where
  waiting : ι → List (α × δ)
  log : List (Event ι α δ)

namespace Contents

def init : Contents ι α δ where
  waiting := fun _ => []
  log := []

def null (t : Contents ι α δ) : Contents ι α δ := { t with log := t.log ++ [.null] }

/-- An item of some queue. -/
def Live (t : Contents ι α δ) (a : α) : Prop := ∃ i, a ∈ addresses (t.waiting i)

open Classical in
/-- One call on the lists. A queue gets its items at its end and is emptied
from its start; an item that is not in its queue stays, and one that is in
no queue may not be deleted. -/
noncomputable def step [DecidableEq ι] [DecidableEq α] (t : Contents ι α δ) :
    Label ι α δ → Option (Contents ι α δ)
  | .add none _ _ => some t.null
  | .add (some i) data fresh =>
      if t.Live fresh then none
      else some {
        waiting := Function.update t.waiting i (t.waiting i ++ [(fresh, data)])
        log := t.log ++ [.added i fresh data] }
  | .pop none => some t.null
  | .pop (some i) =>
      match t.waiting i with
      | [] => some t.null
      | (_, data) :: rest => some {
          waiting := Function.update t.waiting i rest
          log := t.log ++ [.popped i data] }
  | .delete (some i) (some workItem) =>
      if t.waiting i = [] then some t.null
      else if t.Live workItem then
        match (t.waiting i).find? fun e => e.1 = workItem with
        | none => some t.null
        | some (_, data) => some {
            waiting := Function.update t.waiting i
              ((t.waiting i).eraseP fun e => e.1 = workItem)
            log := t.log ++ [.deleted i workItem data] }
      else none
  | .delete _ _ => some t.null

end Contents

/-- The memory holds the items of the lists and no others. -/
structure Represents (s : State ι α δ) (t : Contents ι α δ) : Prop where
  holds : ∀ i, Holds s.items (s.queues i) (t.waiting i)
  apart : ∀ i j, i ≠ j → (addresses (t.waiting i)).Disjoint (addresses (t.waiting j))
  live : ∀ a, (s.items a).isSome → t.Live a
  passes : ∀ i, (t.waiting i).length ≤ s.mallocs
  log : s.log = t.log

/-- The empty heap with its null pointers stands for the empty lists. -/
theorem represents_init : Represents (.init : State ι α δ) .init where
  holds _ := ⟨rfl, rfl, trivial, List.nodup_nil, fun h => absurd rfl h⟩
  apart _ _ _ := List.disjoint_nil_left _
  live _ h := nomatch h
  passes _ := Nat.zero_le _
  log := rfl

section Steps

variable {s : State ι α δ} {t : Contents ι α δ}

/-- A call that gives a null pointer leaves heap and lists as they are. -/
theorem Represents.null (h : Represents s t) : Represents s.null t.null :=
  { h with log := congrArg (· ++ [Event.null]) h.log }

/-- An address is in use exactly if it has been handed out and not been
given back. -/
theorem Represents.live_iff (h : Represents s t) : (s.items a).isSome ↔ t.Live a :=
  ⟨h.live a, fun ⟨i, hMem⟩ => (h.holds i).chained.isSome hMem⟩

variable [DecidableEq ι] [DecidableEq α]

omit [DecidableEq α] in
/-- A call that changes one queue and its items only. -/
theorem Represents.update (h : Represents s t) {mallocs : Nat} {event : Event ι α δ}
    (hHolds : Holds items queue chain)
    (hSame : ∀ j, j ≠ i → ∀ a ∈ addresses (t.waiting j), items a = s.items a)
    (hApart : ∀ j, j ≠ i → (addresses chain).Disjoint (addresses (t.waiting j)))
    (hLive : ∀ a, (items a).isSome → a ∈ addresses chain ∨
      (s.items a).isSome ∧ a ∉ addresses (t.waiting i))
    (hMallocs : s.mallocs ≤ mallocs) (hPasses : chain.length ≤ mallocs) :
    Represents
      { items, queues := Function.update s.queues i queue, mallocs, log := s.log ++ [event] }
      { waiting := Function.update t.waiting i chain, log := t.log ++ [event] } where
  holds j := by
    by_cases hj : j = i
    · subst hj
      simpa using hHolds
    · simpa [hj] using (h.holds j).frame (hSame j hj)
  apart j k hjk := by
    by_cases hj : j = i
    · subst hj
      simpa [Ne.symm hjk] using hApart k (Ne.symm hjk)
    · by_cases hk : k = i
      · subst hk
        simpa [hj] using List.disjoint_symm (hApart j hj)
      · simpa [hj, hk] using h.apart j k hjk
  live a ha := by
    rcases hLive a ha with hChain | ⟨hOld, hNot⟩
    · exact ⟨i, by simpa using hChain⟩
    · obtain ⟨j, hMem⟩ := h.live a hOld
      have hj : j ≠ i := by
        rintro rfl
        exact hNot hMem
      exact ⟨j, by simpa [hj] using hMem⟩
  passes j := by
    by_cases hj : j = i
    · subst hj
      simpa using hPasses
    · simpa [hj] using Nat.le_trans (h.passes j) hMallocs
  log := congrArg (· ++ [event]) h.log

/-- An item is put at the end of its queue, or the call is undefined on both
sides because the address is in use. -/
theorem Represents.add (h : Represents s t) (i : ι) (data : δ) (fresh : α) :
    Option.Rel Represents (workQueueAdd s (some i) data fresh)
      (t.step (.add (some i) data fresh)) := by
  rw [workQueueAdd, Contents.step]
  by_cases hLive : t.Live fresh
  · rw [if_pos (h.live_iff.mpr hLive), if_pos hLive]
    exact .none
  · have hAway (j : ι) : fresh ∉ addresses (t.waiting j) := fun hMem => hLive ⟨j, hMem⟩
    obtain ⟨items, queue, hLink, hHolds, hItem, hSame⟩ := linkLast_holds (h.holds i) (hAway i) data
    rw [if_neg (mt h.live_iff.mp hLive), if_neg hLive]
    simp only [hLink, Option.bind_eq_bind, Option.bind_some]
    refine .some (h.update hHolds ?_ ?_ ?_ (Nat.le_succ _) ?_)
    · intro j hj a hMem
      exact hSame a (h.apart j i hj hMem) (ne_of_mem_of_not_mem hMem (hAway j))
    · intro j hj
      rw [addresses_append, List.disjoint_append_left]
      exact ⟨h.apart i j (Ne.symm hj), List.singleton_disjoint.mpr (hAway j)⟩
    · intro a hSome
      rw [addresses_append, List.mem_append]
      by_cases hFresh : a = fresh
      · exact Or.inl (Or.inr (List.mem_singleton.mpr hFresh))
      · by_cases hMem : a ∈ addresses (t.waiting i)
        · exact Or.inl (Or.inl hMem)
        · exact Or.inr ⟨hSame a hMem hFresh ▸ hSome, hMem⟩
    · rw [List.length_append, List.length_singleton]
      exact Nat.succ_le_succ (h.passes i)

/-- What an addition does to the lists: the item waits last, and it is the
last one added. -/
theorem Represents.added (h : Represents s t) {data : δ} {fresh : α} {s' : State ι α δ}
    (hAdd : workQueueAdd s (some i) data fresh = some s') :
    Represents s' {
      waiting := Function.update t.waiting i (t.waiting i ++ [(fresh, data)])
      log := t.log ++ [.added i fresh data] } := by
  have hRel := h.add i data fresh
  rw [hAdd, Contents.step] at hRel
  split at hRel
  · cases hRel
  · cases hRel with
    | some hAdded => exact hAdded

/-- A call that takes the item between two parts of a queue. -/
theorem Represents.take (h : Represents s t) {event : Event ι α δ}
    (hWaiting : t.waiting i = front ++ (a, data) :: back)
    (hHolds : Holds (items.release a) queue (front ++ back))
    (hSame : ∀ b, b ∉ addresses (t.waiting i) → items b = s.items b) :
    Represents
      { s with
        items := items.release a
        queues := Function.update s.queues i queue
        log := s.log ++ [event] }
      { waiting := Function.update t.waiting i (front ++ back), log := t.log ++ [event] } := by
  have hPart (b : α) (hMem : b ∈ addresses (front ++ back)) : b ∈ addresses (t.waiting i) := by
    rw [addresses_append, List.mem_append] at hMem
    rw [hWaiting, addresses_append, addresses_cons, List.mem_append, List.mem_cons]
    exact hMem.imp_right Or.inr
  have hTaken : a ∈ addresses (t.waiting i) := by simp [hWaiting]
  refine h.update hHolds ?_ ?_ ?_ (Nat.le_refl _) ?_
  · intro j hj b hMem
    have hAway := h.apart j i hj hMem
    rw [Items.release_of_ne (Ne.symm (ne_of_mem_of_not_mem hTaken hAway)), hSame b hAway]
  · exact fun j hj b hMem => h.apart i j (Ne.symm hj) (hPart b hMem)
  · intro b hSome
    obtain ⟨hNe, hSome⟩ := (Items.isSome_release ..).mp hSome
    by_cases hMem : b ∈ addresses (t.waiting i)
    · rw [hWaiting, addresses_append, addresses_cons, List.mem_append, List.mem_cons] at hMem
      rw [addresses_append, List.mem_append]
      exact Or.inl (hMem.imp_right fun hBack => hBack.resolve_left hNe)
    · exact Or.inr ⟨hSame b hMem ▸ hSome, hMem⟩
  · have hPasses := h.passes i
    rw [hWaiting, List.length_append, List.length_cons] at hPasses
    rw [List.length_append]
    exact Nat.le_of_succ_le hPasses

/-- The first item is taken and its address given back. Both sides report
the same data. -/
theorem Represents.pop (h : Represents s t) (i : ι) :
    Option.Rel Represents (workQueuePop s (some i)) (t.step (.pop (some i))) := by
  have hHolds := h.holds i
  rw [Contents.step]
  cases hWaiting : t.waiting i with
  | nil =>
      rw [hWaiting] at hHolds
      rw [workQueuePop_empty hHolds]
      exact .some h.null
  | cons e rest =>
      obtain ⟨a, data⟩ := e
      rw [hWaiting] at hHolds
      obtain ⟨queue, hPop, hRest⟩ := workQueuePop_eq hHolds
      rw [hPop]
      have hFront : t.waiting i = [] ++ (a, data) :: rest := hWaiting
      exact .some (h.take hFront hRest fun _ _ => rfl)

omit [DecidableEq ι] in
/-- The item with an address, and what remains without it. -/
theorem find?_eraseP (hFind : chain.find? (fun e => e.1 = a) = some (b, data)) :
    ∃ front back, b = a ∧ chain = front ++ (b, data) :: back ∧
      chain.eraseP (fun e => e.1 = a) = front ++ back := by
  obtain ⟨hSame, front, back, hChain, hFront⟩ := List.find?_eq_some_iff_append.mp hFind
  obtain rfl : b = a := by simpa using hSame
  refine ⟨front, back, rfl, hChain, ?_⟩
  rw [hChain, List.eraseP_append_right _ (by simpa using hFront), List.eraseP_cons_of_pos (by simp)]

/-- The item is taken out of its queue wherever it stands. One that waits in
another queue stays there, and one that is in no queue makes both sides
undefined. -/
theorem Represents.delete (h : Represents s t) (i : ι) (a : α) :
    Option.Rel Represents (workQueueDelete s (some i) (some a))
      (t.step (.delete (some i) (some a))) := by
  have hHolds := h.holds i
  rw [Contents.step]
  by_cases hEmpty : t.waiting i = []
  · rw [hEmpty] at hHolds
    rw [if_pos hEmpty, workQueueDelete_empty hHolds]
    exact .some h.null
  · rw [if_neg hEmpty]
    by_cases hLive : t.Live a
    · rw [if_pos hLive]
      cases hFind : (t.waiting i).find? fun e => e.1 = a with
      | none =>
          have hAway : a ∉ addresses (t.waiting i) := by
            intro hMem
            obtain ⟨e, hEntry, rfl⟩ := List.mem_map.mp hMem
            simpa using List.find?_eq_none.mp hFind e hEntry
          rw [workQueueDelete_not_mem hHolds (h.passes i) (h.live_iff.mpr hLive) hAway]
          exact .some h.null
      | some e =>
          obtain ⟨b, data⟩ := e
          obtain ⟨front, back, rfl, hWaiting, hErase⟩ := find?_eraseP hFind
          have hPasses := h.passes i
          rw [hWaiting] at hHolds hPasses
          obtain ⟨items, queue, hDelete, hRest, hOld⟩ := workQueueDelete_mem hHolds hPasses
          rw [hDelete]
          dsimp only
          rw [hErase]
          refine .some (h.take hWaiting hRest fun c hc => hOld c fun hMem => hc ?_)
          rw [hWaiting, addresses_append]
          exact List.mem_append_left _ hMem
    · have hFreed : s.items a = none := by
        simpa using mt h.live_iff.mp hLive
      rw [if_neg hLive, workQueueDelete_freed hHolds hEmpty hFreed]
      exact .none

/-- Every call takes the heap and the lists from corresponding states to
corresponding states. -/
theorem represents_step (s : State ι α δ) (t : Contents ι α δ) (label : Label ι α δ)
    (h : Represents s t) : Option.Rel Represents (step s label) (t.step label) := by
  cases label with
  | add workQ data fresh => cases workQ with
    | none => exact .some h.null
    | some i => exact h.add i data fresh
  | pop workQ => cases workQ with
    | none => exact .some h.null
    | some i => exact h.pop i
  | delete workQ workItem =>
      cases workQ with
      | none => exact .some h.null
      | some i => cases workItem with
        | none => exact .some h.null
        | some a => exact h.delete i a

end Steps

/-- Calls on the queues return what they return on the lists, and are
undefined where they are on the lists. -/
theorem workQueue_represents [DecidableEq ι] [DecidableEq α] (labels : List (Label ι α δ)) :
    Option.Rel Represents (run step State.init labels) (run Contents.step Contents.init labels) :=
  run_rel represents_step represents_init labels

section Order

variable [DecidableEq ι]

/-- The data that has been added to a queue, in the order of the calls. -/
def added (i : ι) (log : List (Event ι α δ)) : List δ :=
  log.filterMap fun
    | .added j _ data => if j = i then some data else none
    | _ => none

/-- The data that `work_queue_pop` has returned. -/
def popped (i : ι) (log : List (Event ι α δ)) : List δ :=
  log.filterMap fun
    | .popped j data => if j = i then some data else none
    | _ => none

/-- The data that `work_queue_delete` has returned. -/
def removed (i : ι) (log : List (Event ι α δ)) : List δ :=
  log.filterMap fun
    | .deleted j _ data => if j = i then some data else none
    | _ => none

/-- What was added to a queue has been popped in order, has been deleted or
waits. -/
structure InOrder (t : Contents ι α δ) (i : ι) : Prop where
  order : (popped i t.log ++ (t.waiting i).map Prod.snd).Sublist (added i t.log)
  complete :
    (removed i t.log ++ (popped i t.log ++ (t.waiting i).map Prod.snd)).Perm (added i t.log)

theorem inOrder_init (i : ι) : InOrder (.init : Contents ι α δ) i := ⟨.refl _, .refl _⟩

variable {t t' : Contents ι α δ}

/-- A null pointer in the log changes neither the order nor the conservation
of the items. -/
theorem InOrder.null (h : InOrder t i) : InOrder t.null i := by
  constructor
  · simpa [Contents.null, popped, added] using h.order
  · simpa [Contents.null, popped, added, removed] using h.complete

variable [DecidableEq α]

/-- What a call can do to the lists. -/
theorem Contents.step_cases {label : Label ι α δ} (hStep : t.step label = some t') :
    t' = t.null ∨
    (∃ j a data, t' = { waiting := Function.update t.waiting j (t.waiting j ++ [(a, data)])
                        log := t.log ++ [.added j a data] }) ∨
    (∃ j a data rest, t.waiting j = (a, data) :: rest ∧
      t' = { waiting := Function.update t.waiting j rest, log := t.log ++ [.popped j data] }) ∨
    ∃ j a data front back, t.waiting j = front ++ (a, data) :: back ∧
      t' = { waiting := Function.update t.waiting j (front ++ back)
             log := t.log ++ [.deleted j a data] } := by
  cases label with
  | add workQ data fresh => cases workQ with
    | none => exact Or.inl (Option.some.inj hStep).symm
    | some j =>
        rw [Contents.step] at hStep
        split at hStep
        · cases hStep
        · exact Or.inr (Or.inl ⟨j, fresh, data, (Option.some.inj hStep).symm⟩)
  | pop workQ => cases workQ with
    | none => exact Or.inl (Option.some.inj hStep).symm
    | some j =>
        rw [Contents.step] at hStep
        split at hStep
        · exact Or.inl (Option.some.inj hStep).symm
        · next a data rest hWaiting =>
            exact Or.inr (Or.inr (Or.inl
              ⟨j, a, data, rest, hWaiting, (Option.some.inj hStep).symm⟩))
  | delete workQ workItem =>
      cases workQ with
      | none => exact Or.inl (Option.some.inj hStep).symm
      | some j => cases workItem with
        | none => exact Or.inl (Option.some.inj hStep).symm
        | some a =>
            rw [Contents.step] at hStep
            split at hStep
            · exact Or.inl (Option.some.inj hStep).symm
            · split at hStep
              · split at hStep
                · exact Or.inl (Option.some.inj hStep).symm
                · next b data hFind =>
                    obtain ⟨front, back, rfl, hWaiting, hErase⟩ := find?_eraseP hFind
                    rw [hErase] at hStep
                    exact Or.inr (Or.inr (Or.inr
                      ⟨j, b, data, front, back, hWaiting, (Option.some.inj hStep).symm⟩))
              · cases hStep

/-- Each call keeps what has been popped and what waits in the order of the
additions, and loses and doubles nothing. -/
theorem inOrder_step (t : Contents ι α δ) (label : Label ι α δ) (t' : Contents ι α δ)
    (h : InOrder t i) (hStep : t.step label = some t') : InOrder t' i := by
  rcases Contents.step_cases hStep with rfl | ⟨j, a, data, rfl⟩ |
    ⟨j, a, data, rest, hWaiting, rfl⟩ | ⟨j, a, data, front, back, hWaiting, rfl⟩
  · exact h.null
  all_goals
    obtain ⟨hOrder, hComplete⟩ := h
    by_cases hj : j = i
  · subst hj
    constructor
    · simpa [added, popped] using hOrder.append (.refl [data])
    · simpa [added, popped, removed] using hComplete.append_right [data]
  · constructor
    · simpa [added, popped, hj, Ne.symm hj] using hOrder
    · simpa [added, popped, removed, hj, Ne.symm hj] using hComplete
  · subst hj
    rw [hWaiting] at hOrder hComplete
    constructor
    · simpa [added, popped] using hOrder
    · simpa [added, popped, removed] using hComplete
  · constructor
    · simpa [added, popped, hj, Ne.symm hj] using hOrder
    · simpa [added, popped, removed, hj, Ne.symm hj] using hComplete
  · subst hj
    rw [hWaiting] at hOrder hComplete
    have hTaken : (front ++ back).Sublist (front ++ (a, data) :: back) :=
      (List.sublist_cons_self _ _).append_left _
    have hMiddle : (data :: (popped j t.log ++ (front ++ back).map Prod.snd)).Perm
        (popped j t.log ++ (front ++ (a, data) :: back).map Prod.snd) := by
      rw [List.map_append, List.map_append, List.map_cons, ← List.append_assoc, ← List.append_assoc]
      exact List.perm_middle.symm
    constructor
    · simpa [added, popped] using ((hTaken.map Prod.snd).append_left _).trans hOrder
    · simpa [added, popped, removed] using (hMiddle.append_left (removed j t.log)).trans hComplete
  · constructor
    · simpa [added, popped, hj, Ne.symm hj] using hOrder
    · simpa [added, popped, removed, hj, Ne.symm hj] using hComplete

/-- Over all calls, a queue loses and doubles nothing and keeps the order of
what it is given. -/
theorem workQueue_inOrder {labels : List (Label ι α δ)} {s : State ι α δ}
    (hRun : run step State.init labels = some s) (i : ι) :
    ∃ waiting : List (α × δ), Holds s.items (s.queues i) waiting ∧
      (popped i s.log ++ waiting.map Prod.snd).Sublist (added i s.log) ∧
      (removed i s.log ++ (popped i s.log ++ waiting.map Prod.snd)).Perm (added i s.log) := by
  have hRel := run_rel represents_step represents_init labels
  rw [hRun] at hRel
  generalize hLists : run Contents.step Contents.init labels = lists at hRel
  cases hRel with
  | some hRepresents =>
      next t =>
        have hOrder : InOrder t i := run_kept inOrder_step (inOrder_init i) hLists
        rw [hRepresents.log]
        exact ⟨t.waiting i, hRepresents.holds i, hOrder.order, hOrder.complete⟩

end Order

/-- Three items of one queue: the first is popped, then the last deleted. -/
def threeItems : List (Label Unit Nat Nat) :=
  [.add (some ()) 10 0, .add (some ()) 11 1, .add (some ()) 12 2, .pop (some ()),
    .delete (some ()) (some 2)]

/-- The run is defined, the middle item is left waiting, and the three are
in the order of their additions. -/
theorem threeItems_inOrder : ∃ s, run step State.init threeItems = some s ∧
    ∃ waiting : List (Nat × Nat), Holds s.items (s.queues ()) waiting ∧
      (popped () s.log ++ waiting.map Prod.snd).Sublist (added () s.log) ∧
      (removed () s.log ++ (popped () s.log ++ waiting.map Prod.snd)).Perm (added () s.log) := by
  have hDefined : (run step State.init threeItems).isSome := rfl
  obtain ⟨s, hRun⟩ := Option.isSome_iff_exists.mp hDefined
  exact ⟨s, hRun, workQueue_inOrder hRun ()⟩

end Agps.Queues
