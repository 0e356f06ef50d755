import Gtexswifi.Agps.Channel
import Gtexswifi.Library.Transition

/-! When the results of synchronous commands come from their own final
responses. -/
namespace Agps.Atc

/-- A reported success or error rests on the final response to the reported
command, and that response has been handled. -/
structure Attributed (handled : List FinalResponse) (report : Report) : Prop where
  ok : report.ret = 0 →
    report.consumed = some ⟨report.command, true⟩ ∧ ⟨report.command, true⟩ ∈ handled
  error : report.ret = -3 →
    report.consumed = some ⟨report.command, false⟩ ∧ ⟨report.command, false⟩ ∈ handled

def Matched (s : AtChannel) : Prop := ∀ report ∈ s.reports, Attributed s.handled report

/-- No synchronous call starts on a slot that still holds a line, none meets
the line of another command, and no wait ends without a response or a
timeout. -/
def Orderly (s : AtChannel) : Label → Prop
  | .sendSync _ => s.finalResponse = none
  | .readLine => ∀ call ∈ s.holder, ∀ line ∈ s.arriving.head?, line.command = call.command
  | .storeLine => ∀ call ∈ s.holder, ∀ line ∈ s.reader, line.command = call.command
  | .look now => ∀ call ∈ s.holder, s.finalResponse = none →
      call.timeoutMs = 0 ∨ (setTimespecRelative now call.timeoutMs).Valid
  | .spurious => False
  | _ => True

/-- The commands in the order of their lines: handled, with the reader, on
the wire, still with the modem. -/
def commandOrder (s : AtChannel) : List Nat :=
  s.handled.map (·.command) ++ s.reader.toList.map (·.command) ++
    s.arriving.map (·.command) ++ s.unanswered

structure ChannelInvariant (s : AtChannel) : Prop where
  matched : Matched s
  order : commandOrder s = List.range s.written
  readerFlag : ∀ line ∈ s.reader, s.success = line.success
  slotHandled : ∀ line ∈ s.finalResponse, line ∈ s.handled
  slotOwn : ∀ call ∈ s.holder, ∀ line ∈ s.finalResponse,
    line.command = call.command ∧ s.success = line.success
  signalledSlot : ∀ call ∈ s.holder, ∀ timed, call.phase = .waiting timed true →
    s.finalResponse ≠ none

/-- At the start no command is under way and no response has arrived. -/
theorem channelInvariant_atcInit : ChannelInvariant atcInit := by
  constructor <;> simp [atcInit, Matched, commandOrder]

/-- A command is answered once: a handled line and a line still on the wire
differ. -/
theorem ChannelInvariant.ne_of_arriving {s : AtChannel} (h : ChannelInvariant s)
    {handled arriving : FinalResponse} (hHandled : handled ∈ s.handled)
    (hArriving : arriving ∈ s.arriving) : handled.command ≠ arriving.command := by
  intro hSame
  have hNodup : (commandOrder s).Nodup := h.order ▸ List.nodup_range
  have hLeft : handled.command ∈
      s.handled.map (·.command) ++ s.reader.toList.map (·.command) := by
    simpa using Or.inl ⟨handled, hHandled, rfl⟩
  have hRight : handled.command ∈ s.arriving.map (·.command) :=
    List.mem_map.mpr ⟨arriving, hArriving, hSame.symm⟩
  have hDisjoint := (List.nodup_append.mp (List.nodup_append.mp hNodup).1).2.2
  exact hDisjoint _ hLeft _ hRight rfl

/-- A further line that is handled takes no report its line away. -/
theorem Matched.handle {s : AtChannel} (h : Matched s) (line : FinalResponse) :
    ∀ report ∈ s.reports, Attributed (s.handled ++ [line]) report := by
  intro report hReport
  obtain ⟨hOk, hError⟩ := h report hReport
  exact ⟨fun hRet => ⟨(hOk hRet).1, List.mem_append_left _ (hOk hRet).2⟩,
    fun hRet => ⟨(hError hRet).1, List.mem_append_left _ (hError hRet).2⟩⟩

/-- A call that ends on a slot with a line ends on its own line. -/
theorem channelInvariant_finish {s : AtChannel} (h : ChannelInvariant s) {call : SyncCall}
    (hHolder : s.holder = some call) (err : WaitError)
    (hSlot : err ≠ .timedOut → s.finalResponse ≠ none) : ChannelInvariant (finish s call err) := by
  by_cases hErr : err = .timedOut
  · rw [finish, if_pos hErr]
    refine ⟨?_, h.order, h.readerFlag, h.slotHandled, by simp, by simp⟩
    intro report hReport
    rcases List.mem_append.mp hReport with hOld | hNew
    · exact h.matched report hOld
    · obtain rfl := List.mem_singleton.mp hNew
      constructor <;> simp
  · rw [finish, if_neg hErr]
    refine ⟨?_, h.order, h.readerFlag, by simp, by simp, by simp⟩
    obtain ⟨line, hLine⟩ := Option.ne_none_iff_exists'.mp (hSlot hErr)
    obtain ⟨hOwn, hFlag⟩ := h.slotOwn call hHolder line hLine
    have hHandled := h.slotHandled line hLine
    intro report hReport
    rcases List.mem_append.mp hReport with hOld | hNew
    · exact h.matched report hOld
    · obtain rfl := List.mem_singleton.mp hNew
      obtain ⟨command, success⟩ := line
      obtain rfl : command = call.command := hOwn
      obtain rfl : s.success = success := hFlag
      simp only [hLine]
      constructor
      · intro hRet
        have hSuccess : s.success = true := by
          by_contra hFalse
          simp [hFalse] at hRet
        exact ⟨by rw [hSuccess], hSuccess ▸ hHandled⟩
      · intro hRet
        have hSuccess : s.success = false := by
          by_contra hTrue
          simp [hTrue] at hRet
        exact ⟨by rw [hSuccess], hSuccess ▸ hHandled⟩

/-- Handing a line from one stage to the next keeps the order of the
commands. -/
theorem commandOrder_write (s : AtChannel) (h : commandOrder s = List.range s.written) :
    commandOrder { s with written := s.written + 1, unanswered := s.unanswered ++ [s.written] } =
      List.range (s.written + 1) := by
  rw [List.range_succ, ← h]
  simp [commandOrder]

/-- A command is sent with the slot of the response empty, so that nothing
older can be taken for its answer. -/
theorem channelInvariant_sendSync {s t : AtChannel} (h : ChannelInvariant s) {timeoutMs : Int}
    (hSlot : s.finalResponse = none) (hStep : step s (.sendSync timeoutMs) = some t) :
    ChannelInvariant t := by
  simp only [step] at hStep
  split at hStep
  · obtain rfl := Option.some.inj hStep
    exact {
      matched := h.matched
      order := commandOrder_write s h.order
      readerFlag := h.readerFlag
      slotHandled := h.slotHandled
      slotOwn := by simp [hSlot]
      signalledSlot := by simp }
  · cases hStep

/-- The answer of the modem goes behind the others on their way, and no
report is made. -/
theorem channelInvariant_modemAnswers {s t : AtChannel} (h : ChannelInvariant s) {success : Bool}
    (hStep : step s (.modemAnswers success) = some t) : ChannelInvariant t := by
  simp only [step] at hStep
  split at hStep
  · cases hStep
  · next command rest hUnanswered =>
      obtain rfl := Option.some.inj hStep
      refine { h with order := ?_ }
      rw [← h.order]
      simp [commandOrder, hUnanswered]

/-- The reader thread takes the next line. By assumption it answers the
command under way. -/
theorem channelInvariant_readLine {s t : AtChannel} (h : ChannelInvariant s)
    (hOwn : ∀ call ∈ s.holder, ∀ line ∈ s.arriving.head?, line.command = call.command)
    (hStep : step s .readLine = some t) : ChannelInvariant t := by
  simp only [step] at hStep
  split at hStep
  · next line rest hReader hArriving =>
      obtain rfl := Option.some.inj hStep
      refine { h with order := ?_, readerFlag := by simp, slotOwn := ?_ }
      · rw [← h.order]
        simp [commandOrder, hReader, hArriving]
      · -- A slot that is in use belongs to the holder, whose line cannot arrive again.
        intro call hCall stored hStored
        obtain ⟨hCommand, _⟩ := h.slotOwn call hCall stored hStored
        have hSame := hOwn call hCall line (by simp [hArriving])
        exact absurd (hCommand.trans hSame.symm)
          (h.ne_of_arriving (h.slotHandled stored hStored) (by simp [hArriving]))
  · cases hStep

/-- The line is stored for the command that holds the mutex, which by
assumption it answers. -/
theorem channelInvariant_storeLine {s t : AtChannel} (h : ChannelInvariant s)
    (hOwn : ∀ call ∈ s.holder, ∀ line ∈ s.reader, line.command = call.command)
    (hStep : step s .storeLine = some t) : ChannelInvariant t := by
  simp only [step] at hStep
  split at hStep
  · cases hStep
  · next line hReader =>
      obtain rfl := Option.some.inj hStep
      refine {
        matched := h.matched.handle line
        order := ?_
        readerFlag := by simp
        slotHandled := by simp
        slotOwn := ?_
        signalledSlot := by simp }
      · rw [← h.order]
        simp [commandOrder, hReader]
      · intro call hCall stored hStored
        obtain rfl : line = stored := by simpa using hStored
        obtain ⟨before, hBefore, rfl⟩ : ∃ before, s.holder = some before ∧ _ = call := by
          simpa [Option.map_eq_some_iff] using hCall
        refine ⟨?_, h.readerFlag line hReader⟩
        rw [hOwn before hBefore line hReader]
        split <;> rfl

/-- The caller looks at the slot and reports what it finds, or starts to
wait with a deadline that is valid. -/
theorem channelInvariant_look {s t : AtChannel} (h : ChannelInvariant s) {now : Timeval}
    (hDeadline : ∀ call ∈ s.holder, s.finalResponse = none →
      call.timeoutMs = 0 ∨ (setTimespecRelative now call.timeoutMs).Valid)
    (hStep : step s (.look now) = some t) : ChannelInvariant t := by
  simp only [step] at hStep
  split at hStep
  · next call hHolder =>
      have hWait : ∀ timed, s.finalResponse = none →
          ChannelInvariant { s with holder := some { call with phase := .waiting timed false } } :=
        fun _ hSlot => { h with slotOwn := by simp [hSlot], signalledSlot := by simp }
      split at hStep
      · split at hStep
        · next hSlot =>
            obtain rfl := Option.some.inj hStep
            exact channelInvariant_finish h hHolder .none fun _ => Option.isSome_iff_ne_none.mp hSlot
        · next hSlot =>
            have hEmpty : s.finalResponse = none := by simpa using hSlot
            split at hStep
            · obtain rfl := Option.some.inj hStep
              exact hWait false hEmpty
            · next hTimed =>
                rw [if_pos ((hDeadline call hHolder hEmpty).resolve_left hTimed)] at hStep
                obtain rfl := Option.some.inj hStep
                exact hWait true hEmpty
      · cases hStep
  · cases hStep

/-- A caller that is woken goes to look at the slot. Nothing is reported
yet. -/
theorem channelInvariant_wake {s t : AtChannel} (h : ChannelInvariant s)
    (hStep : step s .wake = some t) : ChannelInvariant t := by
  simp only [step] at hStep
  split at hStep
  · next call hHolder =>
      split at hStep
      · next timed hPhase =>
          obtain rfl := Option.some.inj hStep
          exact channelInvariant_finish h hHolder .none
            fun _ => h.signalledSlot call hHolder timed hPhase
      · cases hStep
  · cases hStep

/-- A caller whose time is over reports that, and not a response. -/
theorem channelInvariant_timeout {s t : AtChannel} (h : ChannelInvariant s)
    (hStep : step s .timeout = some t) : ChannelInvariant t := by
  simp only [step] at hStep
  split at hStep
  · next call hHolder =>
      split at hStep
      · obtain rfl := Option.some.inj hStep
        exact channelInvariant_finish h hHolder .timedOut fun hErr => absurd rfl hErr
      · cases hStep
  · cases hStep

/-- All the steps together, under the condition that each of them is
orderly. -/
theorem channelInvariant_step (s : AtChannel) (label : Label) (t : AtChannel)
    (h : ChannelInvariant s) (hOrderly : Orderly s label) (hStep : step s label = some t) :
    ChannelInvariant t := by
  cases label with
  | sendAsync =>
      obtain rfl := Option.some.inj hStep
      exact { h with order := commandOrder_write s h.order }
  | sendSync timeoutMs => exact channelInvariant_sendSync h hOrderly hStep
  | modemAnswers success => exact channelInvariant_modemAnswers h hStep
  | readLine => exact channelInvariant_readLine h hOrderly hStep
  | storeLine => exact channelInvariant_storeLine h hOrderly hStep
  | look now => exact channelInvariant_look h hOrderly hStep
  | wake => exact channelInvariant_wake h hStep
  | spurious => exact hOrderly.elim
  | timeout => exact channelInvariant_timeout h hStep

/-- In every interleaving whose steps are orderly, each reported success or
error is that of the command's own response, which arrived before the
report. -/
theorem atcSend_matched {labels : List Label} {s : AtChannel}
    (hRun : Transition.run step atcInit labels = some s)
    (hOrderly : Transition.Meets step Orderly atcInit labels) : Matched s :=
  (Transition.run_invariant channelInvariant_step channelInvariant_atcInit hOrderly hRun).matched

/-- A call that waits for its own response and is woken by it. -/
def answeredWait : List Label :=
  [.sendSync 10000, .look ⟨0, 0⟩, .modemAnswers false, .readLine, .storeLine, .wake]

theorem answeredWait_matched :
    ∃ s, Transition.run step atcInit answeredWait = some s ∧ s.reports.length = 1 ∧ Matched s := by
  have hOrderly : Transition.Meets step Orderly atcInit answeredWait := by
    simp [answeredWait, Transition.Meets, Orderly, step, atcInit, Timespec.Valid,
      setTimespecRelative, finish]
  exact ⟨_, rfl, rfl, atcSend_matched rfl hOrderly⟩

/-- The opening of the test program: an asynchronous command, whose response
has arrived by the time the first synchronous call looks at the slot. -/
def asyncThenSync : List Label :=
  [.sendAsync, .modemAnswers true, .readLine, .storeLine, .sendSync 10000, .look ⟨0, 0⟩]

/-- The synchronous call reports success while its own command is still
unanswered. -/
theorem asyncThenSync_unmatched :
    ¬∀ labels s, Transition.run step atcInit labels = some s → Matched s := by
  intro hMatched
  have hReport := hMatched asyncThenSync _ rfl
    { command := 1, ret := 0, consumed := some { command := 0, success := true } }
    (List.mem_singleton.mpr rfl)
  simpa using (hReport.ok rfl).1

end Agps.Atc
