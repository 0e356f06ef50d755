import Gtexswifi.Agps.Dispatch
import Gtexswifi.Agps.LineExactness
import Gtexswifi.Agps.QueueContents

/-! Whatever the reader threads and the threads that register do in whatever
order: a callback is called for the lines that come behind its registration
and start as it asks, once for each. -/
namespace Agps.Dispatch

open Atc LinkedNodes LinkedItems Queues Transition

variable {α κ : Type}

/-- The registrations of a channel, in their order. -/
def registered (i : Fin 2) (log : List (Event κ)) : List (UnsoNode κ) :=
  log.filterMap fun
    | .registered j unode => if j = i then some unode else none
    | .processed _ _ => none

/-- The lines a channel has handled. -/
def processed (i : Fin 2) (log : List (Event κ)) : List (List UInt8) :=
  log.filterMap fun
    | .registered _ _ => none
    | .processed j line => if j = i then some line else none

/-- The string that the calls for a line leave, when they are made in the
order of `unodes`. -/
def leftBy (callbacks : Callbacks κ) (unodes : List (UnsoNode κ)) (line : List UInt8) :
    List UInt8 :=
  unodes.foldl (fun left unode => (unode.called left).elim left (callbacks.leaves · left)) line

/-- The calls of the callbacks whose text a line starts with, as those
before them have left it. -/
def callsOf (callbacks : Callbacks κ) (unodes : List (UnsoNode κ)) (line : List UInt8) :
    List (κ × List UInt8) :=
  unodes.zipIdx.flatMap fun (unode, before) =>
    let left := leftBy callbacks (unodes.take before) line
    ((unode.called left).map (·, left)).toList

/-- The calls that are due when something happens: none for a final
response. -/
def callsFor (callbacks : Callbacks κ) (before : List (Event κ)) :
    Event κ → List (κ × List UInt8)
  | .registered _ _ => []
  | .processed i line =>
      if isFinalResponse line = true then [] else callsOf callbacks (registered i before) line

/-- The calls that are due for what happens behind `before`. -/
def callsBehind (callbacks : Callbacks κ) :
    List (Event κ) → List (Event κ) → List (κ × List UInt8)
  | _, [] => []
  | before, event :: rest =>
      callsFor callbacks before event ++ callsBehind callbacks (before ++ [event]) rest

variable {callbacks : Callbacks κ}

/-- The calls that a log gives rise to are added to event by event, each
with the handlers that were registered up to it. -/
theorem callsBehind_concat (before log : List (Event κ)) (event : Event κ) :
    callsBehind callbacks before (log ++ [event]) =
      callsBehind callbacks before log ++ callsFor callbacks (before ++ log) event := by
  induction log generalizing before with
  | nil => simp [callsBehind]
  | cons first log ih => simp [callsBehind, ih]

/-- The string that the call for one item leaves, which is the line itself
if there is none. -/
theorem leftBy_cons (unode : UnsoNode κ) (unodes : List (UnsoNode κ)) (line : List UInt8) :
    leftBy callbacks (unode :: unodes) line =
      leftBy callbacks unodes ((unode.called line).elim line (callbacks.leaves · line)) :=
  List.foldl_cons ..

/-- The first handler is called with the line as it is, and the others with
what its call leaves of it. -/
theorem callsOf_cons (unode : UnsoNode κ) (unodes : List (UnsoNode κ)) (line : List UInt8) :
    callsOf callbacks (unode :: unodes) line =
      ((unode.called line).map (·, line)).toList ++
        callsOf callbacks unodes ((unode.called line).elim line (callbacks.leaves · line)) := by
  rw [callsOf, List.zipIdx_cons', List.flatMap_cons, List.flatMap_map]
  refine congrArg _ (List.flatMap_congr fun numbered _ => ?_)
  simp only [Prod.map, id, List.take_succ_cons, leftBy_cons]

/-- The calls of further items get what the first ones have left. -/
theorem callsOf_append (first second : List (UnsoNode κ)) (line : List UInt8) :
    callsOf callbacks (first ++ second) line =
      callsOf callbacks first line ++
        callsOf callbacks second (leftBy callbacks first line) := by
  induction first generalizing line with
  | nil => rfl
  | cons unode first ih =>
      rw [List.cons_append, callsOf_cons, callsOf_cons, ih, leftBy_cons, List.append_assoc]

/-- The loop over the queue makes the calls that are due. -/
theorem matchUnsolicitedCb_eq {items : Items α (UnsoNode κ)} {chain : List (α × UnsoNode κ)}
    (h : Chained items chain none) {passes : Nat} (hPasses : chain.length ≤ passes)
    (line : List UInt8) :
    matchUnsolicitedCb callbacks items passes (entry chain none) line =
      some (callsOf callbacks (chain.map Prod.snd) line) := by
  induction chain generalizing passes line with
  | nil => cases passes <;> rfl
  | cons e chain ih =>
      obtain ⟨a, unode⟩ := e
      obtain ⟨passes, rfl⟩ :=
        Nat.exists_eq_succ_of_ne_zero (Nat.ne_of_gt (Nat.zero_lt_of_lt hPasses))
      have hRest := ih h.2 (Nat.le_of_succ_le_succ hPasses)
      rw [entry, matchUnsolicitedCb, h.1]
      simp only [Option.bind_eq_bind, Option.bind_some]
      rw [List.map_cons, callsOf_cons]
      cases unode.called line with
      | none => exact hRest line
      | some cb =>
          simp only [hRest]
          rfl

/-- What a channel has read: the lines it has handled, and the one in hand. -/
def AtChannel.reading (channel : AtChannel) (done : List (List UInt8)) : Reading :=
  ⟨channel.reader, done ++ channel.inHand.toList, channel.exited⟩

/-- The queues hold the registrations, the calls are those that are due, and
every channel has read its lines exactly. -/
structure Dispatching (callbacks : Callbacks κ) (streams : Fin 2 → List UInt8) (s : State α κ) :
    Prop where
  queues : ∃ t, Represents s.queues t ∧
    ∀ i, (t.waiting i).map Prod.snd = registered i s.log
  calls : s.calls = callsBehind callbacks [] s.log
  reading : ∀ i, ((s.atcs i).reading (processed i s.log)).Exact (streams i)

/-- At the start nothing is registered, processed or delivered, and all the
queues are empty. -/
theorem dispatching_init (streams : Fin 2 → List UInt8) :
    Dispatching callbacks streams (.init streams : State α κ) where
  queues := ⟨.init, represents_init, fun _ => rfl⟩
  calls := rfl
  reading i := Reading.init_exact (streams i)

variable {streams : Fin 2 → List UInt8} {s s' : State α κ} {i : Fin 2}

/-- The descriptors do not matter to what has been read and dispatched. -/
theorem Dispatching.withFds (h : Dispatching callbacks streams s) (fds : Fin 2 → Int) :
    Dispatching callbacks streams { s with fds } := ⟨h.queues, h.calls, h.reading⟩

/-- A registration comes behind the earlier ones of its channel, and is none
of another channel. -/
theorem registered_concat (i j : Fin 2) (unode : UnsoNode κ) (log : List (Event κ)) :
    registered i (log ++ [.registered j unode]) =
      registered i log ++ if j = i then [unode] else [] := by
  by_cases hj : j = i <;> simp [registered, hj]

/-- A line comes behind the earlier lines of its channel, and is none of
another channel. -/
theorem processed_concat (i j : Fin 2) (line : List UInt8) (log : List (Event κ)) :
    processed i (log ++ [.processed j line]) = processed i log ++ if j = i then [line] else [] := by
  by_cases hj : j = i <;> simp [processed, hj]

@[simp] theorem registered_processed (i j : Fin 2) (line : List UInt8) (log : List (Event κ)) :
    registered i (log ++ [.processed j line]) = registered i log := by
  simp [registered]

@[simp] theorem processed_registered (i j : Fin 2) (unode : UnsoNode κ) (log : List (Event κ)) :
    processed i (log ++ [.registered j unode]) = processed i log := by
  simp [processed]

/-- The reader thread has the line in hand or is over. -/
theorem Dispatching.readLine (h : Dispatching callbacks streams s) (hStreams : Admissible (streams i))
    (hReads : Reads s i) (reads : List Nat) :
    ∃ s', readerLoop s i reads = some s' ∧ Dispatching callbacks streams s' := by
  obtain ⟨-, hExited, hNone⟩ := hReads
  obtain ⟨t, hCall, hExact⟩ := call_exact hStreams (h.reading i) reads
  obtain ⟨⟨result, r⟩, hLine, rfl⟩ := Option.map_eq_some_iff.mp hCall
  have hReader : readline reads (s.atcs i).reader = some (result, r) := hLine
  rw [readerLoop, hReader]
  refine ⟨_, rfl, { h with reading := fun j => ?_ }⟩
  by_cases hj : j = i
  · subst hj
    cases result with
    | some line => simpa [AtChannel.reading, hNone, hExited] using hExact
    | none => simpa [AtChannel.reading, hNone] using hExact
  · simpa [hj] using h.reading j

/-- A response is final if it is one of the successes or one of the errors,
which are two lists of the source. -/
theorem isFinalResponse_iff (line : List UInt8) : isFinalResponse line = true ↔
    isFinalResponseSuccess line = true ∨ isFinalResponseError line = true := Bool.or_eq_true_iff

/-- A line that goes to the slot, or to the callbacks, is no longer in hand. -/
theorem Dispatching.handled (h : Dispatching callbacks streams s) {line : List UInt8}
    (hLine : (s.atcs i).inHand = some line) {atrep : Option (Bool × List UInt8)}
    {calls : List (κ × List UInt8)} (hCalls : calls = callsFor callbacks s.log (.processed i line)) :
    Dispatching callbacks streams { s with
      atcs := Function.update s.atcs i { s.atcs i with inHand := none, atrep }
      calls := s.calls ++ calls
      log := s.log ++ [.processed i line] } where
  queues := by
    obtain ⟨t, hRepresents, hWaiting⟩ := h.queues
    exact ⟨t, hRepresents, fun j => by rw [registered_processed, hWaiting]⟩
  calls := by
    rw [callsBehind_concat, ← h.calls, hCalls]
    rfl
  reading j := by
    rw [processed_concat]
    by_cases hj : j = i
    · subst hj
      simpa [AtChannel.reading, hLine] using h.reading j
    · simpa [hj, Ne.symm hj] using h.reading j

/-- A line in hand can be processed: no handler is missing, and the calls
made are the ones that the log gives rise to. No descriptor, no queue and no
buffer is touched. -/
theorem Dispatching.processLine (h : Dispatching callbacks streams s) {line : List UInt8}
    (hLine : (s.atcs i).inHand = some line) :
    ∃ s', processLine callbacks s i line = some s' ∧ Dispatching callbacks streams s' := by
  have hFinal := isFinalResponse_iff line
  unfold Dispatch.processLine
  split
  · next hSuccess =>
      have hNone : [] = callsFor callbacks s.log (.processed i line) :=
        (if_pos (hFinal.mpr (Or.inl hSuccess))).symm
      exact ⟨_, rfl, by simpa using h.handled hLine hNone⟩
  · next hSuccess =>
      split
      · next hError =>
          have hNone : [] = callsFor callbacks s.log (.processed i line) :=
            (if_pos (hFinal.mpr (Or.inr hError))).symm
          exact ⟨_, rfl, by simpa using h.handled hLine hNone⟩
      · next hError =>
          obtain ⟨t, hRepresents, hWaiting⟩ := h.queues
          have hHolds := hRepresents.holds i
          have hDue : callsOf callbacks (registered i s.log) line = callsFor callbacks s.log (.processed i line) :=
            (if_neg (mt hFinal.mp (not_or.mpr ⟨hSuccess, hError⟩))).symm
          rw [hHolds.head, matchUnsolicitedCb_eq hHolds.chained (hRepresents.passes i), hWaiting]
          exact ⟨_, rfl, h.handled hLine hDue⟩

variable [DecidableEq α]

/-- A registration puts the handler behind the others of its channel, where
the queue of unsolicited items and the log agree again. -/
theorem Dispatching.register (h : Dispatching callbacks streams s) {atc : Option (Fin 2)}
    {prefixUnso : List UInt8} {cb : Option κ} {workItem : α} {fd : Int}
    (hStep : atcRegisterUnsolicited s atc prefixUnso cb workItem fd = some s') :
    Dispatching callbacks streams s' := by
  unfold atcRegisterUnsolicited at hStep
  split at hStep
  · exact Option.some.inj hStep ▸ h.withFds _
  · next fds j _ =>
      have hOpen := h.withFds fds
      obtain ⟨t, hRepresents, hWaiting⟩ := hOpen.queues
      dsimp only at hStep
      split at hStep
      · obtain ⟨queues, hAdd, rfl⟩ := Option.map_eq_some_iff.mp hStep
        refine ⟨⟨_, hRepresents.added hAdd, fun i => ?_⟩, ?_, fun i => ?_⟩
        · rw [registered_concat, ← hWaiting i]
          by_cases hj : j = i
          · subst hj
            simp
          · simp [hj, Ne.symm hj]
        · rw [callsBehind_concat, ← hOpen.calls]
          exact (List.append_nil _).symm
        · rw [processed_registered]
          exact hOpen.reading i
      · obtain ⟨queues, hNull, rfl⟩ := Option.map_eq_some_iff.mp hStep
        obtain rfl := Option.some.inj hNull
        exact { hOpen with queues := ⟨_, hRepresents.null, hWaiting⟩ }

/-- Each step of the reader threads and of the agent keeps the
correspondence of the queues, the log and what the ports have delivered. -/
theorem dispatching_step (hStreams : ∀ i, Admissible (streams i)) (s : State α κ)
    (label : Label α κ) (s' : State α κ) (h : Dispatching callbacks streams s)
    (hStep : step callbacks s label = some s') : Dispatching callbacks streams s' := by
  cases label with
  | atcInit fd =>
      rw [step] at hStep
      split at hStep
      · cases hStep
      · exact Option.some.inj hStep ▸ h.withFds _
  | register atc prefixUnso cb workItem fd =>
      rw [step] at hStep
      split at hStep
      · cases hStep
      · exact h.register hStep
  | readLine i reads =>
      rw [step] at hStep
      split at hStep
      · next hReads =>
          obtain ⟨t, hRead, hNext⟩ := h.readLine (hStreams i) hReads reads
          obtain rfl := Option.some.inj (hRead.symm.trans hStep)
          exact hNext
      · cases hStep
  | processLine i =>
      obtain ⟨line, hLine, hProcess⟩ := Option.bind_eq_some_iff.mp hStep
      obtain ⟨t, hNextLine, hNext⟩ := h.processLine hLine
      obtain rfl := Option.some.inj (hNextLine.symm.trans hProcess)
      exact hNext

/-- A short stream without zeros and prompts meets all that the reader asks
for, since each of its lines is shorter than the stream. -/
theorem admissible_of_short {stream : List UInt8} (hZero : ∀ c ∈ stream, c ≠ 0)
    (hPrompt : 0x3e ∉ stream) (hShort : stream.length < maxAtResponse) : Admissible stream where
  noZero := hZero
  noPrompt front rest h := absurd (by simp [h]) hPrompt
  fits front run line rest h _ _ := by
    rw [h] at hShort
    simp only [List.length_append] at hShort
    omega

/-- `"+SPAGPSEND\r\n"`. -/
def endStream : List UInt8 :=
  [0x2b, 0x53, 0x50, 0x41, 0x47, 0x50, 0x53, 0x45, 0x4e, 0x44, 0x0d, 0x0a]

/-- A callback that puts a NUL over the `E` of its line. -/
def cutting : Callbacks Unit where
  leaves _ line := line.takeWhile (· ≠ 0x45)
  shortens _ _ := (List.takeWhile_prefix _).length_le

/-- Callbacks for `"+SPAGPS"` and `"+SPAGPSEND"` are registered, which opens
the first channel. The first gets the line, and leaves nothing that starts
as the second asks. -/
def endLabels : List (Label Nat Unit) :=
  [.register none (endStream.take 7) (some ()) 0 3,
    .register none (endStream.take 10) (some ()) 1 3, .readLine ⟨0, Nat.two_pos⟩ [20],
    .processLine ⟨0, Nat.two_pos⟩]

end Agps.Dispatch
