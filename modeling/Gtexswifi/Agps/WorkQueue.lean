import Gtexswifi.Library.LinkedItems

/-! The work queues of the AT channels, with the memory of their items. `ι`
are the queues and `α` the addresses `malloc` returns; a pointer is `none`
when it is NULL. An access to an item that has been freed gives `none`. -/
namespace Agps.Queues

open LinkedItems

structure WorkQueue (α : Type*) where
  head : Option α
  tail : Option α
  itemCount : Nat
  deriving DecidableEq

/-- What a call has done, as its caller sees it. -/
inductive Event (ι α δ : Type*) where
  | added (queue : ι) (workItem : α) (data : δ)
  | popped (queue : ι) (data : δ)
  | deleted (queue : ι) (workItem : α) (data : δ)
  /-- The call returned NULL. -/
  | null
  deriving DecidableEq

structure State (ι α δ : Type*) where
  items : Items α δ
  queues : ι → WorkQueue α
  /-- How many items have been allocated. -/
  mallocs : Nat
  log : List (Event ι α δ)

variable {ι α δ : Type} [DecidableEq ι] [DecidableEq α]

/-- Every queue after `work_queue_new`. -/
def State.init : State ι α δ where
  items := fun _ => none
  queues := fun _ => { head := none, tail := none, itemCount := 0 }
  mallocs := 0
  log := []

/-- A call that returned NULL and has changed nothing. -/
def State.null (s : State ι α δ) : State ι α δ := { s with log := s.log ++ [.null] }

/-- The branches of `work_queue_add`: the new item becomes the only one, or
the last. -/
def linkLast (items : Items α δ) (queue : WorkQueue α) (workItem : α) :
    Option (Items α δ × WorkQueue α) :=
  if queue.head = none then
    some (items, { head := some workItem, tail := some workItem, itemCount := 1 })
  else
    (items.setNext queue.tail (some workItem)).map fun items =>
      (items, { queue with tail := some workItem, itemCount := queue.itemCount + 1 })

/-- `work_queue_add`; `malloc` returns `workItem`, which is no item that has
not been freed. -/
def workQueueAdd (s : State ι α δ) (workQ : Option ι) (data : δ) (workItem : α) :
    Option (State ι α δ) :=
  match workQ with
  | none => some s.null
  | some i =>
      if (s.items workItem).isSome then none
      else do
        let items := s.items.put workItem { next := none, data }
        let (items, queue) ← linkLast items (s.queues i) workItem
        some {
          items
          queues := Function.update s.queues i queue
          mallocs := s.mallocs + 1
          log := s.log ++ [.added i workItem data] }

/-- `work_queue_pop`. The count of the items stays. -/
def workQueuePop (s : State ι α δ) (workQ : Option ι) : Option (State ι α δ) :=
  match workQ with
  | none => some s.null
  | some i =>
      match (s.queues i).head with
      | none => some s.null
      | some workItem => do
          let item ← s.items workItem
          let queue := { s.queues i with
            head := item.next
            tail := if item.next = none then none else (s.queues i).tail }
          some { s with
            items := s.items.release workItem
            queues := Function.update s.queues i queue
            log := s.log ++ [.popped i item.data] }

/-- The loop of `work_queue_delete`: `prev` and `curr` at its end. -/
def locate (items : Items α δ) (workItem : α) : Nat → α → Option α → Option (α × Option α)
  | _, prev, none => some (prev, none)
  | 0, _, some _ => none
  | passes + 1, prev, some curr =>
      if curr = workItem then some (prev, some curr)
      else do
        let item ← items curr
        locate items workItem passes curr item.next

/-- The end of `work_queue_delete`, with the links the queue has then. -/
def deleted (s : State ι α δ) (i : ι) (workItem : α) (data : δ) (items : Items α δ)
    (head tail : Option α) : State ι α δ :=
  let queue := { s.queues i with head, tail := if head = none then none else tail }
  { s with
    items := items.release workItem
    queues := Function.update s.queues i queue
    log := s.log ++ [.deleted i workItem data] }

/-- `work_queue_delete`. The data of the item is read before the queue is
searched. -/
def workQueueDelete (s : State ι α δ) : Option ι → Option α → Option (State ι α δ)
  | some i, some workItem =>
      match (s.queues i).head with
      | none => some s.null
      | some head => do
          let item ← s.items workItem
          if head = workItem then
            some (deleted s i workItem item.data s.items item.next (s.queues i).tail)
          else
            let first ← s.items head
            match ← locate s.items workItem s.mallocs head first.next with
            | (_, none) => some s.null
            | (prev, some curr) =>
                let found ← s.items curr
                let items ← s.items.setNext (some prev) found.next
                let tail := if (s.queues i).tail = some curr then some prev else (s.queues i).tail
                some (deleted s i workItem item.data items (some head) tail)
  | _, _ => some s.null

inductive Label (ι α δ : Type*) where
  /-- `malloc` answers with `fresh`. -/
  | add (workQ : Option ι) (data : δ) (fresh : α)
  | pop (workQ : Option ι)
  | delete (workQ : Option ι) (workItem : Option α)

/-- One call. -/
def step (s : State ι α δ) : Label ι α δ → Option (State ι α δ)
  | .add workQ data fresh => workQueueAdd s workQ data fresh
  | .pop workQ => workQueuePop s workQ
  | .delete workQ workItem => workQueueDelete s workQ workItem

end Agps.Queues
