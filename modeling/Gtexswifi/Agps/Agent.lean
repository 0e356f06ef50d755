import Gtexswifi.Agps.CutLines
import Gtexswifi.Agps.DispatchExactness

/-! The agent of the aGPS stack: the lines it registers for, the handlers of
their messages, and its initialisation among the steps of the reader
threads. -/
namespace Agps.Agent

open Atc (Admissible)
open Dispatch Transition

/-- The messages of the network, as they stand in `AT_PREFIX_table`. -/
inductive AtIndex where
  | spagpsdl | spagpsend | spagpsstate | spagpsnilr | spagpsmtlr | spagpsreset
  deriving DecidableEq, Repr

/-- `+SPAGPSDL:`, `+SPAGPSEND`, `+SPAGPSSTATE:`, `+SPAGPSNILR`,
`+SPAGPSMTLR:` and `+SPAGPSRESET:`. -/
def atPrefixTable : AtIndex → List UInt8
  | .spagpsdl => Agps.spagpsdl
  | .spagpsend => [0x2b, 0x53, 0x50, 0x41, 0x47, 0x50, 0x53, 0x45, 0x4e, 0x44]
  | .spagpsstate => [0x2b, 0x53, 0x50, 0x41, 0x47, 0x50, 0x53, 0x53, 0x54, 0x41, 0x54, 0x45, 0x3a]
  | .spagpsnilr => [0x2b, 0x53, 0x50, 0x41, 0x47, 0x50, 0x53, 0x4e, 0x49, 0x4c, 0x52]
  | .spagpsmtlr => Agps.spagpsmtlr
  | .spagpsreset => [0x2b, 0x53, 0x50, 0x41, 0x47, 0x50, 0x53, 0x52, 0x45, 0x53, 0x45, 0x54, 0x3a]

/-- A call of a function of `struct agps_c_plane_hook`. -/
inductive HookCall where
  | cppayload (call : Downlink)
  | measTerm
  | rrcState (rrcState : UInt32)
  | e911notify
  | cpReset (type : Int16)
  | mtlrNotify (call : UserNotifyParams)
  deriving DecidableEq

/-- `c_plane_stack_hook`, by what its functions return. -/
structure CPlaneHook where
  cppayloadCb : Downlink → Nat
  measTermCb : Nat
  rrcStateCb : UInt32 → Nat
  e911notifyCb : Nat
  cpResetCb : Int16 → Nat
  mtlrNotifyCb : UserNotifyParams → Nat

/-- The local buffers of the handlers, with what the stack holds there. -/
structure Stack where
  pduData : List UInt8
  requestorID : List UInt8
  clientName : List UInt8

/-- An `unsigned long int` that is returned as an `int`. -/
def toInt (ret : Nat) : Int := (Int32.ofNat ret).toInt

def handleNotifyStopSession (hook : CPlaneHook) : Outcome HookCall :=
  .returned (toInt hook.measTermCb) [.measTerm]

def handleNotifyStateChange (longBits : Nat) (hook : CPlaneHook) (pData : List UInt8) :
    Outcome HookCall :=
  handled do
    let line ← tokStart pData
    let (rrcState, _) ← nextint longBits line
    return (if hook.rrcStateCb rrcState.toUInt32 = 0 then -1 else 0, [.rrcState rrcState.toUInt32])

def handleNotifyNILocateReq (hook : CPlaneHook) : Outcome HookCall :=
  .returned (toInt hook.e911notifyCb) [.e911notify]

/-- `parse_nextint` writes an `int` where `type` has room for a `short`: the
low half goes there, and the other over what stands behind it, which nothing
reads any more. -/
def handleResetPosInfo (longBits : Nat) (hook : CPlaneHook) (pData : List UInt8) :
    Outcome HookCall :=
  handled do
    let line ← tokStart pData
    let (type, _) ← nextint longBits line
    return (if hook.cpResetCb type.toInt16 = 0 then -1 else 0, [.cpReset type.toInt16])

/-- The calls of one function as calls of the hook. -/
def asHook {Call : Type} (f : Call → HookCall) : Outcome Call → Outcome HookCall
  | .returned err calls => .returned err (calls.map f)
  | .nullToken => .nullToken

/-- The handler of a message. -/
def handle (longBits : Nat) (hook : CPlaneHook) (stack : Stack) (line : List UInt8) :
    AtIndex → Outcome HookCall
  | .spagpsdl =>
      asHook .cppayload (handleReportDownlinkData longBits hook.cppayloadCb stack.pduData line)
  | .spagpsend => handleNotifyStopSession hook
  | .spagpsstate => handleNotifyStateChange longBits hook line
  | .spagpsnilr => handleNotifyNILocateReq hook
  | .spagpsmtlr =>
      asHook .mtlrNotify
        (handleNotifyMTLR longBits hook.mtlrNotifyCb stack.requestorID stack.clientName line)
  | .spagpsreset => handleResetPosInfo longBits hook line

/-- `my_at_response_cb` returns 0 whatever the handler has returned. -/
def ignoreResult : Outcome HookCall → Outcome HookCall
  | .returned _ calls => .returned 0 calls
  | .nullToken => .nullToken

def myAtResponseCb (longBits : Nat) (hook : CPlaneHook) (stack : Stack) (line : List UInt8) :
    Outcome HookCall :=
  let handle := handle longBits hook stack line
  if strStartsWith line (atPrefixTable .spagpsdl) = true then ignoreResult (handle .spagpsdl)
  else if strStartsWith line (atPrefixTable .spagpsend) = true then ignoreResult (handle .spagpsend)
  else if strStartsWith line (atPrefixTable .spagpsstate) = true then
    ignoreResult (handle .spagpsstate)
  else if strStartsWith line (atPrefixTable .spagpsnilr) = true then
    ignoreResult (handle .spagpsnilr)
  else if strStartsWith line (atPrefixTable .spagpsmtlr) = true then
    ignoreResult (handle .spagpsmtlr)
  else if strStartsWith line (atPrefixTable .spagpsreset) = true then
    ignoreResult (handle .spagpsreset)
  else .returned 0 []

/-- The messages with fields, which their handlers read with `strsep`. -/
def fieldMessages : List AtIndex := [.spagpsdl, .spagpsstate, .spagpsmtlr, .spagpsreset]

/-- The string that `my_at_response_cb` leaves of its line when it returns:
the first field has been cut off by the handler of a message with fields,
and the others do not look at the line. -/
def myAtResponseCbLeaves (line : List UInt8) : List UInt8 :=
  if (fieldMessages.any fun index => strStartsWith line (atPrefixTable index)) = true then
    fieldsLeft line
  else line

/-- All callbacks are `my_at_response_cb`. -/
def agentCallbacks (κ : Type) : Callbacks κ where
  leaves _ := myAtResponseCbLeaves
  shortens _ line := by
    rw [myAtResponseCbLeaves]
    split_ifs
    · exact (prefix_fieldsLeft line).length_le
    · exact Nat.le_refl _

/-- The comparison of `strStartsWith` up to the end of the prefix is the
prefix relation of the strings. -/
theorem strStartsWith_iff {line start : List UInt8} :
    strStartsWith line start = true ↔ start <+: line := by
  induction line generalizing start with
  | nil => cases start <;> simp [strStartsWith]
  | cons c line ih => cases start with
    | nil => simp [strStartsWith]
    | cons d start =>
        by_cases h : c = d
        · simp [strStartsWith, h, ih]
        · simp [strStartsWith, h, Ne.symm h]

/-- A line starts with one entry of the table at most. -/
theorem atIndex_unique {line : List UInt8} {index other : AtIndex}
    (h : strStartsWith line (atPrefixTable index) = true)
    (hOther : strStartsWith line (atPrefixTable other) = true) : index = other := by
  have hTable : ∀ index other : AtIndex,
      atPrefixTable index <+: atPrefixTable other → index = other := by
    intro index other
    cases index <;> cases other <;> decide
  rcases List.prefix_or_prefix_of_prefix (strStartsWith_iff.mp h) (strStartsWith_iff.mp hOther)
    with hPrefix | hPrefix
  · exact hTable _ _ hPrefix
  · exact (hTable _ _ hPrefix).symm

/-- No entry of the table of prefixes begins another one, so that a line
that starts with one message's prefix is a line with fields exactly if that
message is. -/
theorem any_fieldMessages {line : List UInt8} {index : AtIndex}
    (h : strStartsWith line (atPrefixTable index) = true) :
    (fieldMessages.any fun index => strStartsWith line (atPrefixTable index)) = true ↔
      index ∈ fieldMessages := by
  rw [List.any_eq_true]
  exact ⟨fun ⟨other, hMem, hOther⟩ => atIndex_unique h hOther ▸ hMem, fun hMem => ⟨index, hMem, h⟩⟩

/-- The line of a message with fields: a name, a colon, and the fields. -/
theorem exists_fields {line : List UInt8} {index : AtIndex} (hFields : index ∈ fieldMessages)
    (h : strStartsWith line (atPrefixTable index) = true) :
    ∃ name rest, 0x3a ∉ name ∧ atPrefixTable index = name ++ [0x3a] ∧
      line = name ++ 0x3a :: rest := by
  have hTable : ∀ index ∈ fieldMessages, 0x3a ∉ (atPrefixTable index).dropLast ∧
      atPrefixTable index = (atPrefixTable index).dropLast ++ [0x3a] := by
    decide
  obtain ⟨hName, hColon⟩ := hTable index hFields
  obtain ⟨rest, rfl⟩ := strStartsWith_iff.mp h
  refine ⟨_, rest, hName, hColon, ?_⟩
  rw [List.append_cons, ← hColon]

/-- What is left of a message is one, and nothing more is cut off it. -/
theorem myAtResponseCbLeaves_spec {line : List UInt8} {index : AtIndex}
    (h : strStartsWith line (atPrefixTable index) = true) :
    strStartsWith (myAtResponseCbLeaves line) (atPrefixTable index) = true ∧
      myAtResponseCbLeaves (myAtResponseCbLeaves line) = myAtResponseCbLeaves line := by
  by_cases hFields : index ∈ fieldMessages
  · obtain ⟨name, rest, hName, hColon, hLine⟩ := exists_fields hFields h
    have hLeft : myAtResponseCbLeaves line = name ++ 0x3a :: currentTokLeft rest := by
      rw [myAtResponseCbLeaves, if_pos ((any_fieldMessages h).mpr hFields), hLine,
        fieldsLeft_colon hName]
    have hStarts : strStartsWith (myAtResponseCbLeaves line) (atPrefixTable index) = true := by
      rw [strStartsWith_iff, hLeft, hColon]
      exact ⟨_, (List.append_cons name 0x3a _).symm⟩
    refine ⟨hStarts, ?_⟩
    rw [myAtResponseCbLeaves, if_pos ((any_fieldMessages hStarts).mpr hFields), hLeft,
      fieldsLeft_colon hName, currentTokLeft_currentTokLeft]
  · have hLeft : myAtResponseCbLeaves line = line :=
      if_neg (mt (any_fieldMessages h).mp hFields)
    rw [hLeft]
    exact ⟨h, hLeft⟩

/-- A message of the network is no final response. -/
theorem isFinalResponse_of_atIndex {line : List UInt8} {index : AtIndex}
    (h : strStartsWith line (atPrefixTable index) = true) : isFinalResponse line = false := by
  have hTable : ∀ index : AtIndex, ∀ start ∈ finalResponsesSuccess ++ finalResponsesError,
      ¬start <+: atPrefixTable index ∧ ¬atPrefixTable index <+: start := by
    intro index
    cases index <;> decide
  have hNone : ∀ start ∈ finalResponsesSuccess ++ finalResponsesError,
      strStartsWith line start = false := by
    intro start hStart
    refine Bool.eq_false_iff.mpr fun hLine => ?_
    obtain ⟨hFirst, hSecond⟩ := hTable index start hStart
    exact (List.prefix_or_prefix_of_prefix (strStartsWith_iff.mp hLine)
      (strStartsWith_iff.mp h)).elim hFirst hSecond
  rw [isFinalResponse, isFinalResponseSuccess, isFinalResponseError, Bool.or_eq_false_iff,
    List.any_eq_false, List.any_eq_false]
  exact ⟨fun start hStart => by simp [hNone start (List.mem_append_left _ hStart)],
    fun start hStart => by simp [hNone start (List.mem_append_right _ hStart)]⟩

/-- A message goes to its handler. -/
theorem myAtResponseCb_eq {line : List UInt8} {index : AtIndex}
    (h : strStartsWith line (atPrefixTable index) = true) (longBits : Nat) (hook : CPlaneHook)
    (stack : Stack) :
    myAtResponseCb longBits hook stack line =
      ignoreResult (handle longBits hook stack line index) := by
  have hOther {other : AtIndex} (hNe : other ≠ index) :
      ¬strStartsWith line (atPrefixTable other) = true := fun hLine => hNe (atIndex_unique hLine h)
  unfold myAtResponseCb
  cases index with
  | spagpsdl => simp [h]
  | spagpsend => simp [h, hOther]
  | spagpsstate => simp [h, hOther]
  | spagpsnilr => simp [h, hOther]
  | spagpsmtlr => simp [h, hOther]
  | spagpsreset => simp [h, hOther]

/-- The messages with several fields. -/
def manyFields : List AtIndex := [.spagpsdl, .spagpsmtlr]

/-- The handler of a message that has been handled before: behind the first
field there is none, and so a message with several does not get to its hook.
The others do all they did. -/
theorem handle_left {line : List UInt8} {index : AtIndex}
    (h : strStartsWith line (atPrefixTable index) = true) (longBits : Nat) (hook : CPlaneHook)
    (stack : Stack) :
    handle longBits hook stack (myAtResponseCbLeaves line) index =
      if index ∈ manyFields then .returned (-1) [] else handle longBits hook stack line index := by
  have hLeft (hFields : index ∈ fieldMessages) : ∃ rest, tokStart line = .ok (some rest) ∧
      tokStart (myAtResponseCbLeaves line) = .ok (some (currentTokLeft rest)) := by
    obtain ⟨name, rest, hName, -, rfl⟩ := exists_fields hFields h
    refine ⟨rest, tokStart_colon hName rest, ?_⟩
    rw [myAtResponseCbLeaves, if_pos ((any_fieldMessages h).mpr hFields), fieldsLeft_colon hName,
      tokStart_colon hName]
  cases index with
  | spagpsend => rfl
  | spagpsnilr => rfl
  | spagpsdl =>
      obtain ⟨rest, -, hStart⟩ := hLeft (by decide)
      obtain ⟨type, -, -, hNext⟩ := nextint_left longBits rest
      simp only [handle, handleReportDownlinkData, hStart, bind, Except.bind, hNext]
      rfl
  | spagpsmtlr =>
      obtain ⟨rest, -, hStart⟩ := hLeft (by decide)
      obtain ⟨handleId, -, -, hNext⟩ := nextint_left longBits rest
      simp only [handle, handleNotifyMTLR, hStart, bind, Except.bind, hNext]
      rfl
  | spagpsstate =>
      obtain ⟨rest, hLine, hStart⟩ := hLeft (by decide)
      obtain ⟨rrcState, cur, hField, hNext⟩ := nextint_left longBits rest
      simp only [handle, handleNotifyStateChange, hLine, hStart, bind, Except.bind, hField, hNext]
      rfl
  | spagpsreset =>
      obtain ⟨rest, hLine, hStart⟩ := hLeft (by decide)
      obtain ⟨type, cur, hField, hNext⟩ := nextint_left longBits rest
      simp only [handle, handleResetPosInfo, hLine, hStart, bind, Except.bind, hField, hNext]
      rfl

/-- The texts `register_RecvCommand` registers. -/
def recvCommands : List (List UInt8) :=
  [.spagpsdl, .spagpsend, .spagpsstate, .spagpsnilr, .spagpsmtlr, .spagpsreset].map atPrefixTable

variable {α κ : Type}

/-- What `open` returns to a call of `agps_c_plane_stack_init`, and `malloc`
to its registrations. -/
structure InitCall (α : Type) where
  fd : Int
  workItem : List UInt8 → α

/-- `register_RecvCommand`. -/
def registerRecvCommand (cb : κ) (call : InitCall α) : List (Label α κ) :=
  recvCommands.map fun start => .register none start (some cb) (call.workItem start) call.fd

/-- The steps of successive calls of `agps_c_plane_stack_init`, where
`opened` channels are open already. A call that gets no channel returns
before it registers anything. -/
def agpsCPlaneStackInit (cb : κ) : Nat → List (InitCall α) → List (Label α κ)
  | _, [] => []
  | opened, call :: calls =>
      .atcInit call.fd ::
        if opened < 2 ∧ 0 < call.fd then
          registerRecvCommand cb call ++ agpsCPlaneStackInit cb (opened + 1) calls
        else agpsCPlaneStackInit cb opened calls

/-- The calls that have got a channel. -/
def initialised : Nat → List (InitCall α) → Nat
  | _, [] => 0
  | opened, call :: calls =>
      if opened < 2 ∧ 0 < call.fd then initialised (opened + 1) calls + 1
      else initialised opened calls

/-- The descriptors and the registrations. -/
structure Setup (κ : Type) where
  fds : Fin 2 → Int
  registered : Fin 2 → List (UnsoNode κ)

def Setup.of (s : Dispatch.State α κ) : Setup κ where
  fds := s.fds
  registered i := Dispatch.registered i s.log

def Setup.register (s : Setup κ) (atc : Option (Fin 2)) (unode : UnsoNode κ) (fd : Int) :
    Setup κ :=
  match atcTryInit s.fds atc fd with
  | (fds, none) => { s with fds }
  | (fds, some i) =>
      if 0 < fds i then
        ⟨fds, Function.update s.registered i (s.registered i ++ [unode])⟩
      else { s with fds }

def Setup.step (s : Setup κ) : Label α κ → Setup κ
  | .atcInit fd => { s with fds := (atcInit s.fds fd).1 }
  | .register atc prefixUnso cb _ fd => s.register atc { prefixUnso, cb } fd
  | .readLine _ _ => s
  | .processLine _ => s

/-- A step of a thread that is no reader thread. -/
def isSetup : Label α κ → Bool
  | .atcInit _ => true
  | .register _ _ _ _ _ => true
  | .readLine _ _ => false
  | .processLine _ => false

section Steps

/-- A line that is processed closes and opens no port, and adds nothing but
itself to the log. What the initialisations have set up is therefore left
alone. -/
theorem processLine_frame {callbacks : Callbacks κ} {s s' : Dispatch.State α κ} {i : Fin 2}
    {line : List UInt8} (hStep : processLine callbacks s i line = some s') :
    s'.fds = s.fds ∧ s'.log = s.log ++ [.processed i line] := by
  unfold processLine at hStep
  split at hStep
  · exact Option.some.inj hStep ▸ ⟨rfl, rfl⟩
  · split at hStep
    · exact Option.some.inj hStep ▸ ⟨rfl, rfl⟩
    · obtain ⟨calls, -, rfl⟩ := Option.map_eq_some_iff.mp hStep
      exact ⟨rfl, rfl⟩

variable [DecidableEq α] {callbacks : Callbacks κ} {s s' : Dispatch.State α κ}

/-- Only the initialisation, the opening of a port and the registrations
change the setup, and each does to it what the abstract step says. -/
theorem setup_step {label : Label α κ} (hStep : step callbacks s label = some s') :
    Setup.of s' = (Setup.of s).step label := by
  cases label with
  | atcInit fd =>
      rw [step] at hStep
      split at hStep
      · cases hStep
      · exact Option.some.inj hStep ▸ rfl
  | register atc prefixUnso cb workItem fd =>
      rw [step] at hStep
      split at hStep
      · cases hStep
      · rw [Setup.step, Setup.register]
        unfold atcRegisterUnsolicited at hStep
        dsimp only [Setup.of] at hStep ⊢
        generalize atcTryInit s.fds atc fd = tried at hStep ⊢
        obtain ⟨fds, found⟩ := tried
        cases found with
        | none => exact Option.some.inj hStep ▸ rfl
        | some i =>
            dsimp only at hStep ⊢
            by_cases hOpen : 0 < fds i
            · rw [if_pos hOpen] at hStep ⊢
              obtain ⟨queues, -, rfl⟩ := Option.map_eq_some_iff.mp hStep
              simp only [registered_concat, Setup.mk.injEq, true_and]
              funext j
              by_cases hj : j = i
              · subst hj
                simp
              · simp [hj, Ne.symm hj]
            · rw [if_neg hOpen] at hStep ⊢
              obtain ⟨queues, -, rfl⟩ := Option.map_eq_some_iff.mp hStep
              rfl
  | readLine i reads =>
      rw [step] at hStep
      split at hStep
      · obtain ⟨outcome, -, rfl⟩ := Option.map_eq_some_iff.mp hStep
        rfl
      · cases hStep
  | processLine i =>
      obtain ⟨line, -, hProcess⟩ := Option.bind_eq_some_iff.mp hStep
      obtain ⟨hFds, hLog⟩ := processLine_frame hProcess
      simp only [Setup.of, Setup.step, hFds, hLog, registered_processed]

/-- The steps of the reader threads do not matter to what is open and
registered. -/
theorem setup_run {labels : List (Label α κ)} (hRun : run (step callbacks) s labels = some s') :
    Setup.of s' = (labels.filter isSetup).foldl Setup.step (Setup.of s) := by
  induction labels generalizing s with
  | nil => rw [Option.some.inj hRun, List.filter_nil, List.foldl_nil]
  | cons label rest ih =>
      obtain ⟨middle, hMiddle, hRest⟩ := Option.bind_eq_some_iff.mp hRun
      rw [ih hRest, setup_step hMiddle]
      cases label with
      | atcInit fd => rfl
      | register atc prefixUnso cb workItem fd => rfl
      | readLine i reads => rfl
      | processLine i => rfl

end Steps

/-- What `register_RecvCommand` adds to the first channel. -/
def recvNodes (cb : κ) : List (UnsoNode κ) :=
  recvCommands.map fun start => { prefixUnso := start, cb := some cb }

/-- So many channels are open, from the first one on. -/
def Opened (fds : Fin 2 → Int) (opened : Nat) : Prop := ∀ i, 0 < fds i ↔ i.val < opened

/-- With the first channel open, the texts are registered there. -/
theorem foldl_register {fds : Fin 2 → Int} (hOpen : 0 < fds 0) (starts : List (List UInt8))
    (unodes : Fin 2 → List (UnsoNode κ)) (cb : κ) (workItem : List UInt8 → α)
    (fd : Int) :
    (starts.map fun start => Label.register none start (some cb) (workItem start) fd).foldl
        Setup.step ⟨fds, unodes⟩ =
      ⟨fds, Function.update unodes 0
        (unodes 0 ++ starts.map fun start => { prefixUnso := start, cb := some cb })⟩ := by
  induction starts generalizing unodes with
  | nil => simp
  | cons start starts ih =>
      have hNext : Setup.step ⟨fds, unodes⟩
            (Label.register none start (some cb) (workItem start) fd) =
          ⟨fds, Function.update unodes 0
            (unodes 0 ++ [{ prefixUnso := start, cb := some cb }])⟩ := by
        simp only [Setup.step, Setup.register, atcTryInit, if_neg (Int.not_le.mpr hOpen),
          if_pos hOpen]
      rw [List.map_cons, List.foldl_cons, hNext, ih]
      simp

/-- `atc_init` opens the next channel, if there is one and `open` succeeds. -/
theorem opened_atcInit {fds : Fin 2 → Int} {opened : Nat} (h : Opened fds opened) (fd : Int) :
    Opened (atcInit fds fd).1 (if opened < 2 ∧ 0 < fd then opened + 1 else opened) := by
  have hFirst : 0 < fds 0 ↔ 0 < opened := h 0
  have hSecond : 0 < fds 1 ↔ 1 < opened := h 1
  refine Fin.forall_fin_two.mpr ?_
  by_cases hNone : opened = 0
  · subst hNone
    by_cases hfd : 0 < fd
    · simp [atcInit, not_lt.mp (hFirst.not.mpr (by decide)), hSecond, hfd]
    · simp [atcInit, not_lt.mp (hFirst.not.mpr (by decide)), hSecond, hfd]
  by_cases hOne : opened = 1
  · subst hOne
    have hOpen : ¬fds 0 ≤ 0 := not_le.mpr (hFirst.mpr (by decide))
    by_cases hfd : 0 < fd
    · simp [atcInit, hOpen, hFirst, not_lt.mp (hSecond.not.mpr (by decide)), hfd]
    · simp [atcInit, hOpen, hFirst, not_lt.mp (hSecond.not.mpr (by decide)), hfd]
  · have hTwo : ¬opened < 2 := by omega
    have hFull : [0, 1].find? (fun i => decide (fds i ≤ 0)) = none := by
      simp only [List.find?_eq_none, List.mem_cons, List.not_mem_nil, or_false, decide_eq_true_eq,
        forall_eq_or_imp, forall_eq, not_le, hFirst, hSecond]
      omega
    rw [atcInit, hFull, if_neg fun hRoom => hTwo hRoom.1]
    exact ⟨hFirst, hSecond⟩

/-- The first channel has a descriptor as soon as one port has been opened,
since the ports are opened in the order of the channels. -/
theorem Opened.first {fds : Fin 2 → Int} {opened : Nat} (h : Opened fds (opened + 1)) :
    0 < fds 0 := (h 0).mpr opened.succ_pos

/-- Every call that gets a channel registers the texts again, on the first
channel. -/
theorem foldl_agpsCPlaneStackInit {fds : Fin 2 → Int} {opened : Nat} (h : Opened fds opened)
    (unodes : Fin 2 → List (UnsoNode κ)) (cb : κ) (calls : List (InitCall α)) :
    ∃ fds', (agpsCPlaneStackInit cb opened calls).foldl Setup.step ⟨fds, unodes⟩ =
      ⟨fds', Function.update unodes 0
        (unodes 0 ++ (List.replicate (initialised opened calls) (recvNodes cb)).flatten)⟩ := by
  induction calls generalizing fds opened unodes with
  | nil => exact ⟨fds, by simp [agpsCPlaneStackInit, initialised]⟩
  | cons call calls ih =>
      have hNext := opened_atcInit h call.fd
      have hInit : Setup.step ⟨fds, unodes⟩ (Label.atcInit call.fd : Label α κ) =
          ⟨(atcInit fds call.fd).1, unodes⟩ := rfl
      rw [agpsCPlaneStackInit, initialised, List.foldl_cons, hInit]
      by_cases hChannel : opened < 2 ∧ 0 < call.fd
      · rw [if_pos hChannel] at hNext
        rw [if_pos hChannel, if_pos hChannel, List.foldl_append, registerRecvCommand,
          foldl_register hNext.first]
        obtain ⟨fds', hCalls⟩ := ih hNext (Function.update unodes 0 (unodes 0 ++ recvNodes cb))
        refine ⟨fds', hCalls.trans ?_⟩
        simp [List.replicate_succ]
      · rw [if_neg hChannel] at hNext
        rw [if_neg hChannel, if_neg hChannel]
        exact ih hNext unodes

/-- What is registered when the agent has been initialised. -/
theorem registered_of_run [DecidableEq α] {callbacks : Callbacks κ}
    {streams : Fin 2 → List UInt8} {cb : κ} {labels : List (Label α κ)} {s : Dispatch.State α κ} {calls : List (InitCall α)}
    (hCalls : labels.filter isSetup = agpsCPlaneStackInit cb 0 calls)
    (hRun : run (step callbacks) (.init streams) labels = some s) :
    registered 0 s.log = (List.replicate (initialised 0 calls) (recvNodes cb)).flatten ∧
      registered 1 s.log = [] := by
  have hClosed : Opened (fun _ => 0) 0 := fun i => by simp
  obtain ⟨fds, hSetup⟩ := foldl_agpsCPlaneStackInit hClosed (fun _ => []) cb calls
  have hOf := setup_run hRun
  have hInit : Setup.of (State.init streams : Dispatch.State α κ) =
      ⟨fun _ => 0, fun _ => []⟩ := rfl
  rw [hCalls, hInit, hSetup] at hOf
  have hRegistered := congrArg Setup.registered hOf
  exact ⟨congrFun hRegistered 0, congrFun hRegistered 1⟩

/-- The strings that successive registrations of the callback get: the line,
and what the first call has left of it. -/
def handedOut (cb : κ) (line : List UInt8) : Nat → List (κ × List UInt8)
  | 0 => []
  | count + 1 => (cb, line) :: List.replicate count (cb, myAtResponseCbLeaves line)

/-- One of the texts of `register_RecvCommand` is that of a message, and it
is still when the callback has been called. -/
theorem callsOf_recvNodes {line : List UInt8} {index : AtIndex} (cb : κ)
    (h : strStartsWith line (atPrefixTable index) = true) :
    callsOf (agentCallbacks κ) (recvNodes cb) line = [(cb, line)] ∧
      leftBy (agentCallbacks κ) (recvNodes cb) line = myAtResponseCbLeaves line := by
  have hOther {line : List UInt8} (h : strStartsWith line (atPrefixTable index) = true)
      {other : AtIndex} (hNe : other ≠ index) :
      strStartsWith line (atPrefixTable other) = false :=
    Bool.eq_false_iff.mpr fun hLine => hNe (atIndex_unique hLine h)
  have hLeft := (myAtResponseCbLeaves_spec h).1
  simp only [recvNodes, recvCommands, List.map_cons, List.map_nil, callsOf_cons, leftBy_cons,
    UnsoNode.called]
  cases index with
  | spagpsdl => simp [h, hOther hLeft, agentCallbacks, callsOf, leftBy]
  | spagpsend => simp [h, hOther h, hOther hLeft, agentCallbacks, callsOf, leftBy]
  | spagpsstate => simp [h, hOther h, hOther hLeft, agentCallbacks, callsOf, leftBy]
  | spagpsnilr => simp [h, hOther h, hOther hLeft, agentCallbacks, callsOf, leftBy]
  | spagpsmtlr => simp [h, hOther h, hOther hLeft, agentCallbacks, callsOf, leftBy]
  | spagpsreset => simp [h, hOther h, agentCallbacks, callsOf, leftBy]

/-- With the same handlers registered once for each initialisation, a line
is handed to each of them in turn, and what the first call cuts is what the
others see. -/
theorem callsOf_replicate {line : List UInt8} {index : AtIndex} (cb : κ)
    (h : strStartsWith line (atPrefixTable index) = true) (count : Nat) :
    callsOf (agentCallbacks κ) (List.replicate count (recvNodes cb)).flatten line =
      handedOut cb line count := by
  induction count generalizing line with
  | zero => rfl
  | succ count ih =>
      obtain ⟨hStarts, hAgain⟩ := myAtResponseCbLeaves_spec h
      obtain ⟨hCalls, hLeft⟩ := callsOf_recvNodes cb h
      rw [List.replicate_succ, List.flatten_cons, callsOf_append, hCalls, hLeft, ih hStarts,
        handedOut, List.singleton_append]
      cases count with
      | zero => rfl
      | succ count => rw [handedOut, hAgain, List.replicate_succ]

/-- No callback is called for another line, which stays as it is. -/
theorem callsOf_replicate_none {line : List UInt8} (cb : κ)
    (h : ∀ index, strStartsWith line (atPrefixTable index) = false) (count : Nat) :
    callsOf (agentCallbacks κ) (List.replicate count (recvNodes cb)).flatten line = [] := by
  have hOnce : callsOf (agentCallbacks κ) (recvNodes cb) line = [] ∧
      leftBy (agentCallbacks κ) (recvNodes cb) line = line := by
    simp only [recvNodes, recvCommands, List.map_cons, List.map_nil, callsOf_cons, leftBy_cons,
      UnsoNode.called]
    simp [h, callsOf, leftBy]
  induction count with
  | zero => rfl
  | succ count ih =>
      rw [List.replicate_succ, List.flatten_cons, callsOf_append, hOnce.1, hOnce.2, ih]
      rfl

/-- When the agent has been initialised, whatever the reader threads have
done meanwhile, a message of the first channel goes to its handler once for
every initialisation that has got a channel: the first time as it has come,
and then as the first call has left it, so that a message with several
fields does not get to its hook any more. No other line, and no line of the
second channel, goes to a handler. -/
theorem agent_handles [DecidableEq α] {streams : Fin 2 → List UInt8} {cb : κ}
    (hStreams : ∀ i, Admissible (streams i)) {labels : List (Label α κ)}
    {calls : List (InitCall α)}
    (hCalls : labels.filter isSetup = agpsCPlaneStackInit cb 0 calls)
    {s : Dispatch.State α κ}
    (hRun : run (step (agentCallbacks κ)) (.init streams) labels = some s) {i : Fin 2}
    {line : List UInt8} (hLine : (s.atcs i).inHand = some line) :
    ∃ s', step (agentCallbacks κ) s (.processLine i) = some s' ∧
      ((∀ index, strStartsWith line (atPrefixTable index) = false) → s'.calls = s.calls) ∧
      ∀ index, strStartsWith line (atPrefixTable index) = true →
        s'.calls = s.calls ++ handedOut cb line (if i = 0 then initialised 0 calls else 0) ∧
        ∀ longBits hook stack,
          myAtResponseCb longBits hook stack line =
            ignoreResult (handle longBits hook stack line index) ∧
          myAtResponseCb longBits hook stack (myAtResponseCbLeaves line) =
            if index ∈ manyFields then .returned 0 []
            else ignoreResult (handle longBits hook stack line index) := by
  have h : Dispatching (agentCallbacks κ) streams s := run_kept (dispatching_step hStreams)
    (dispatching_init streams) hRun
  obtain ⟨hFirst, hSecond⟩ := registered_of_run hCalls hRun
  have hRegistered : registered i s.log =
      (List.replicate (if i = 0 then initialised 0 calls else 0) (recvNodes cb)).flatten := by
    match i with
    | 0 => exact hFirst
    | 1 => exact hSecond
  obtain ⟨s', hProcess, hNext⟩ := h.processLine hLine
  have hDue : s'.calls = s.calls ++
      callsFor (agentCallbacks κ) s.log (.processed i line) := by
    rw [hNext.calls, (processLine_frame hProcess).2, callsBehind_concat, ← h.calls]
    rfl
  refine ⟨s', ?_, fun hNone => ?_, fun index hIndex => ⟨?_, fun longBits hook stack => ?_⟩⟩
  · rw [step, hLine]
    exact hProcess
  · rw [hDue, callsFor, hRegistered, callsOf_replicate_none cb hNone, ite_self, List.append_nil]
  · rw [hDue, callsFor, isFinalResponse_of_atIndex hIndex, if_neg Bool.false_ne_true, hRegistered,
      callsOf_replicate cb hIndex]
  · refine ⟨myAtResponseCb_eq hIndex longBits hook stack, ?_⟩
    rw [myAtResponseCb_eq (myAtResponseCbLeaves_spec hIndex).1, handle_left hIndex, apply_ite
      ignoreResult]
    rfl

/-- `"+SPAGPSSTATE:1,2\r\n"`. -/
def stateStream : List UInt8 :=
  [0x2b, 0x53, 0x50, 0x41, 0x47, 0x50, 0x53, 0x53, 0x54, 0x41, 0x54, 0x45, 0x3a, 0x31, 0x2c, 0x32,
    0x0d, 0x0a]

/-- Two initialisations, and a change of the state. -/
def stateChange : List (Label (List UInt8 ⊕ List UInt8) Unit) :=
  agpsCPlaneStackInit () 0 [⟨3, Sum.inl⟩, ⟨4, Sum.inr⟩] ++ [.readLine ⟨0, Nat.two_pos⟩ [20]]

/-- Two initialisations and one line with two fields. The second handler is
called with what the first has left of the line, which ends at its first
comma. -/
theorem stateChange_handles :
    ∃ s, run (step (agentCallbacks Unit)) (.init fun _ => stateStream) stateChange = some s ∧
      ∃ s', step (agentCallbacks Unit) s (.processLine 0) = some s' ∧
        ((∀ index, strStartsWith (stateStream.take 16) (atPrefixTable index) = false) →
          s'.calls = s.calls) ∧
        ∀ index, strStartsWith (stateStream.take 16) (atPrefixTable index) = true →
          s'.calls = s.calls ++ [((), stateStream.take 16), ((), stateStream.take 14)] ∧
          ∀ longBits hook stack,
            myAtResponseCb longBits hook stack (stateStream.take 16) =
              ignoreResult (handle longBits hook stack (stateStream.take 16) index) ∧
            myAtResponseCb longBits hook stack (stateStream.take 14) =
              if index ∈ manyFields then .returned 0 []
              else ignoreResult (handle longBits hook stack (stateStream.take 16) index) := by
  have hDefined : ((run (step (agentCallbacks Unit)) (.init fun _ => stateStream)
      stateChange).bind fun s => (s.atcs 0).inHand) = some (stateStream.take 16) := by
    decide +kernel
  obtain ⟨s, hRun, hLine⟩ := Option.bind_eq_some_iff.mp hDefined
  have hStream : Admissible stateStream :=
    admissible_of_short (by simp [stateStream]) (by simp [stateStream]) (by decide)
  have hCalls : stateChange.filter isSetup =
      agpsCPlaneStackInit () 0 [⟨3, Sum.inl⟩, ⟨4, Sum.inr⟩] := rfl
  exact ⟨s, hRun, agent_handles (fun _ => hStream) hCalls hRun hLine⟩

end Agps.Agent
