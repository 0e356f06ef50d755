import Gtexswifi.Gnss.Reports

/-! What the commands answer after any sequence of callbacks and calls:
everything comes from what was reported last. -/
namespace Gnss

open Numerals Transition

variable {Double : Type} (arithmetic : Arithmetic Double) (longBits : Nat)

/-- The state of the commands behind an event. Nothing that the receiver
reports matters to it. -/
def Event.engine (s : State) : Event Double → State
  | .setGpsMode mode => (Gnss.setGpsMode s mode).1
  | .gpsExportStart => Gnss.gpsExportStart s
  | .gpsExportStop => Gnss.gpsExportStop s
  | .gpsEutParse line =>
      match dispatch longBits line.pieces with
      | some (.eut, data, _) => (eutParse s data).state
      | some (.search, data, _) => (searchParse s data).state
      | _ => s
  | _ => s

def enginesBehind (s : State) (events : List (Event Double)) : State :=
  events.foldl (Event.engine longBits) s

/-- The sentences that come behind the end of `get_init_mode`, each with the
state of the commands when it comes. -/
def heard : State → Bool → List (Event Double) → List (State × List UInt8)
  | _, _, [] => []
  | s, _, .getInitMode :: events => heard s true events
  | s, true, .nmeaCallback sentence _ :: events => (s, sentence) :: heard s true events
  | s, firstOpen, event :: events => heard (event.engine longBits s) firstOpen events

/-- The lines that a `GREENEYE_II` captures: those that come while
`eut_gps_state` is 2. -/
def captured (chipId : ChipId) (sentences : List (State × List UInt8)) : List (List UInt8) :=
  (sentences.filter fun x => chipId = .greenEyeII ∧ x.1.eutGpsState = 2).map Prod.snd

def reports (sentences : List (State × List UInt8)) : List (Report Double) :=
  sentences.filterMap fun x => report arithmetic x.2

def Report.cwcnValue : Report Double → Option Int32
  | .cwcn value => some value
  | _ => none

def Report.tcxoValue : Report Double → Option Double
  | .tcxo value => some value
  | _ => none

def Event.location : Event Double → Option (Double × Double)
  | .locationCallback latitude longitude => some (latitude, longitude)
  | _ => none

def Event.opens : Event Double → Bool
  | .getInitMode => true
  | _ => false

def Event.svState : Event Double → Option (List (SvInfo Double))
  | .svStatusCallback svs => some svs
  | _ => none

/-- The receiver that a sequence of events tells of: the last one of
everything that was reported, and the signal of the last window. -/
def told (chipId : ChipId) (events : List (Event Double)) : Receiver Double :=
  let sentences := heard longBits .init false events
  let windows := (captures (captured chipId sentences)).all.flatMap readWindows
  let locations := events.filterMap Event.location
  { svState := (events.filterMap Event.svState).getLastD []
    fixStatus := !locations.isEmpty
    latitude := (locations.getLastD (arithmetic.zero, arithmetic.zero)).1
    longitude := (locations.getLastD (arithmetic.zero, arithmetic.zero)).2
    chipId := chipId
    cwcnValue := ((reports arithmetic sentences).filterMap Report.cwcnValue).getLastD 0
    cn0 := (windows.map arithmetic.signal).getLastD 0
    tsxTemp := arithmetic.zero
    tcxoValue :=
      ((reports arithmetic sentences).filterMap Report.tcxoValue).getLastD arithmetic.zero
    register := fun _ => 0 }

/-- What the events have left of a session. -/
structure Told (s : Session Double) (events : List (Event Double)) (t : Session Double) : Prop where
  engine : t.engine = enginesBehind longBits s.engine events
  chipId : t.chipId = s.chipId
  firstOpen : t.firstOpen = (s.firstOpen || events.any Event.opens)
  svState : t.svState = (events.filterMap Event.svState).getLastD s.svState
  fixStatus : t.fixStatus = (s.fixStatus || !(events.filterMap Event.location).isEmpty)
  location : (t.latitude, t.longitude) =
    (events.filterMap Event.location).getLastD (s.latitude, s.longitude)
  cwcnValue : t.values.cwcnValue = ((reports arithmetic
    (heard longBits s.engine s.firstOpen events)).filterMap Report.cwcnValue).getLastD
      s.values.cwcnValue
  tcxoValue : t.values.tcxoValue = ((reports arithmetic
    (heard longBits s.engine s.firstOpen events)).filterMap Report.tcxoValue).getLastD
      s.values.tcxoValue
  capture : run cwDataCapture s.capture
    (captured s.chipId (heard longBits s.engine s.firstOpen events)) = some t.capture

variable {arithmetic longBits}

theorem Told.refl (s : Session Double) : Told arithmetic longBits s [] s :=
  ⟨rfl, rfl, (Bool.or_false _).symm, rfl, (Bool.or_false _).symm, rfl, rfl, rfl, rfl⟩

/-- The receiver's data matter to an answer, but not to the state that it
leaves. -/
theorem answer_state (s : Session Double) (line : CommandLine Double) :
    (s.answer arithmetic longBits line).state =
      Event.engine longBits s.engine (.gpsEutParse line) := by
  have hPieces : (line.request (s.receiver arithmetic)).pieces = line.pieces := rfl
  rw [Session.answer, gpsEutParse, hPieces, Event.engine]
  cases hDispatch : dispatch longBits line.pieces with
  | none => rfl
  | some called =>
      obtain ⟨command, data, subData⟩ := called
      by_cases hEut : command = .eut
      · subst hEut
        rfl
      by_cases hSearch : command = .search
      · subst hSearch
        rfl
      · have hState := func_state arithmetic.toDoubles s.engine
          (line.request (s.receiver arithmetic)).receiver data subData hEut hSearch
        cases command with
        | eut => exact absurd rfl hEut
        | search => exact absurd rfl hSearch
        | _ => exact hState

/-- What a step does, with the sentences that it hears. -/
structure Advances (arithmetic : Arithmetic Double) (longBits : Nat) (s : Session Double)
    (event : Event Double) (m : Session Double) (sentences : List (State × List UInt8)) :
    Prop where
  engine : m.engine = event.engine longBits s.engine
  chipId : m.chipId = s.chipId
  firstOpen : m.firstOpen = (s.firstOpen || event.opens)
  svState : m.svState = event.svState.getD s.svState
  fixStatus : m.fixStatus = (s.fixStatus || event.location.isSome)
  location : (m.latitude, m.longitude) = event.location.getD (s.latitude, s.longitude)
  values : m.values = (reports arithmetic sentences).foldl Values.note s.values
  capture : run cwDataCapture s.capture (captured s.chipId sentences) = some m.capture
  heard_cons : ∀ events, heard longBits s.engine s.firstOpen (event :: events) =
    sentences ++ heard longBits m.engine m.firstOpen events

/-- An event that needs the session to be open and changes nothing but the
engine advances the session by itself. -/
theorem advances_opened {s m : Session Double} {event : Event Double} {engine : State}
    (hStep : s.opened engine = some m) (hEngine : event.engine longBits s.engine = engine)
    (hOpens : event.opens = false) (hState : event.svState = none)
    (hLocation : event.location = none)
    (hHeard : ∀ events, heard longBits s.engine s.firstOpen (event :: events) =
      heard longBits engine s.firstOpen events) :
    Advances arithmetic longBits s event m [] := by
  unfold Session.opened at hStep
  split at hStep
  · obtain rfl := Option.some.inj hStep
    exact ⟨hEngine.symm, rfl, by rw [hOpens, Bool.or_false], by rw [hState, Option.getD_none],
      by rw [hLocation, Option.isSome_none, Bool.or_false], by rw [hLocation, Option.getD_none],
      rfl, rfl, hHeard⟩
  · cases hStep

/-- A sentence is captured on a GREENEYE_II while the EUT state asks for it,
and reported otherwise. -/
theorem captured_singleton (chipId : ChipId) (s : State) (sentence : List UInt8) :
    captured chipId [(s, sentence)] =
      if chipId = .greenEyeII ∧ s.eutGpsState = 2 then [sentence] else [] := by
  by_cases hCapture : chipId = .greenEyeII ∧ s.eutGpsState = 2
  · simp [captured, hCapture]
  · simp [captured, hCapture]

/-- `nmea_parse` captures a line where it should, and takes every sentence
for its report. -/
theorem nmeaParse_spec {s m : Session Double} {sentence : List UInt8} {tzer : NmeaTokenizer}
    (h : nmeaParse arithmetic s sentence tzer = some m) :
    ∃ capture, run cwDataCapture s.capture (captured s.chipId [(s.engine, sentence)]) =
        some capture ∧
      m = { s with
        capture
        values := (reports arithmetic [(s.engine, sentence)]).foldl Values.note s.values } := by
  have hValues (tzer : NmeaTokenizer) : parseFields arithmetic s.values sentence tzer =
      (reports arithmetic [(s.engine, sentence)]).foldl Values.note s.values := by
    rw [parseFields_eq, reports]
    cases hReport : report arithmetic sentence with
    | none => simp [hReport]
    | some r => simp [hReport]
  unfold nmeaParse at h
  split at h
  · next hCapture =>
      obtain ⟨capture, hStep, rfl⟩ := Option.map_eq_some_iff.mp h
      refine ⟨capture, ?_, by rw [hValues]⟩
      rw [captured_singleton, if_pos hCapture, run_cons, hStep]
      rfl
  · next hCapture =>
      have hRun : run cwDataCapture s.capture (captured s.chipId [(s.engine, sentence)]) =
          some s.capture := by
        rw [captured_singleton, if_neg hCapture]
        rfl
      refine ⟨s.capture, hRun, ?_⟩
      split at h
      · next hShort =>
          obtain rfl := Option.some.inj h
          simp [reports, report_of_short arithmetic hShort.1]
      · rw [← hValues tzer]
        exact (Option.some.inj h).symm

/-- What each event does to the session, said once: the engine that it
leaves, the values that it sets, and the sentences that are heard with it. -/
theorem sessionStep_advances {s m : Session Double} {event : Event Double}
    (hStep : sessionStep arithmetic longBits s event = some m) :
    ∃ sentences, Advances arithmetic longBits s event m sentences := by
  cases event with
  | locationCallback latitude longitude =>
      obtain rfl := Option.some.inj hStep
      exact ⟨[], rfl, rfl, (Bool.or_false _).symm, rfl, (Bool.or_true _).symm, rfl, rfl, rfl,
        fun _ => rfl⟩
  | svStatusCallback svs =>
      obtain rfl := Option.some.inj hStep
      exact ⟨[], rfl, rfl, (Bool.or_false _).symm, rfl, (Bool.or_false _).symm, rfl, rfl, rfl,
        fun _ => rfl⟩
  | nmeaCallback sentence tzer =>
      rw [sessionStep, nmeaCallback] at hStep
      cases hOpen : s.firstOpen with
      | false =>
          rw [if_pos hOpen] at hStep
          obtain rfl := Option.some.inj hStep
          exact ⟨[], rfl, rfl, (Bool.or_false _).symm, rfl, (Bool.or_false _).symm, rfl, rfl, rfl,
            fun _ => by
            rw [hOpen]
            rfl⟩
      | true =>
          rw [if_neg (by rw [hOpen]; decide)] at hStep
          refine ⟨[(s.engine, sentence)], ?_⟩
          split at hStep
          · obtain ⟨capture, hRun, rfl⟩ := nmeaParse_spec hStep
            exact ⟨rfl, rfl, (Bool.or_false _).symm, rfl, (Bool.or_false _).symm, rfl, rfl, hRun,
              fun _ => by
              rw [hOpen]
              rfl⟩
          · obtain ⟨capture, hRun, rfl⟩ := nmeaParse_spec hStep
            exact ⟨rfl, rfl, (Bool.or_false _).symm, rfl, (Bool.or_false _).symm, rfl, rfl, hRun,
              fun _ => by
              rw [hOpen]
              rfl⟩
  | getInitMode =>
      obtain rfl := Option.some.inj hStep
      exact ⟨[], rfl, rfl, (Bool.or_true _).symm, rfl, (Bool.or_false _).symm, rfl, rfl, rfl,
        fun _ => rfl⟩
  | setReportPtr set =>
      obtain rfl := Option.some.inj hStep
      exact ⟨[], rfl, rfl, (Bool.or_false _).symm, rfl, (Bool.or_false _).symm, rfl, rfl, rfl,
        fun _ => rfl⟩
  | setGpsMode mode => exact ⟨[], advances_opened hStep rfl rfl rfl rfl fun _ => rfl⟩
  | gpsExportStart => exact ⟨[], advances_opened hStep rfl rfl rfl rfl fun _ => rfl⟩
  | gpsExportStop => exact ⟨[], advances_opened hStep rfl rfl rfl rfl fun _ => rfl⟩
  | gpsEutParse line =>
      exact ⟨[], advances_opened hStep (answer_state s line).symm rfl rfl rfl fun _ => by
        rw [answer_state]
        rfl⟩

/-- The last element of two lists is the last of the second, if it has one. -/
theorem getLastD_append {α : Type*} (first second : List α) (a : α) :
    (first ++ second).getLastD a = second.getLastD (first.getLastD a) := by
  induction first generalizing a with
  | nil => rfl
  | cons b first ih => rw [List.cons_append, List.getLastD_cons, List.getLastD_cons, ih]

/-- After all the reports the two test values are the last ones that a
report has brought. -/
theorem foldl_note (values : Values Double) (reported : List (Report Double)) :
    (reported.foldl Values.note values).cwcnValue =
        (reported.filterMap Report.cwcnValue).getLastD values.cwcnValue ∧
      (reported.foldl Values.note values).tcxoValue =
        (reported.filterMap Report.tcxoValue).getLastD values.tcxoValue := by
  induction reported generalizing values with
  | nil => exact ⟨rfl, rfl⟩
  | cons r reported ih =>
      obtain ⟨hCwcn, hTcxo⟩ := ih (values.note r)
      rw [List.foldl_cons, hCwcn, hTcxo]
      cases r with
      | cwcn value => exact ⟨(List.getLastD_cons ..).symm, rfl⟩
      | tsx value => exact ⟨rfl, rfl⟩
      | tcxo value => exact ⟨rfl, (List.getLastD_cons ..).symm⟩

theorem getLastD_filterMap_cons {α β : Type*} (f : α → Option β) (x : α) (rest : List α) (b : β) :
    ((x :: rest).filterMap f).getLastD b = (rest.filterMap f).getLastD ((f x).getD b) := by
  cases hx : f x with
  | none => rw [List.filterMap_cons_none hx, Option.getD_none]
  | some y => rw [List.filterMap_cons_some hx, List.getLastD_cons, Option.getD_some]

/-- The reports of two runs of sentences come one behind the other. -/
theorem reports_append (first second : List (State × List UInt8)) :
    reports arithmetic (first ++ second) = reports arithmetic first ++ reports arithmetic second :=
  List.filterMap_append

theorem captured_append (chipId : ChipId) (first second : List (State × List UInt8)) :
    captured chipId (first ++ second) = captured chipId first ++ captured chipId second := by
  rw [captured, List.filter_append, List.map_append]
  rfl

/-- One event in front of those that have been told. The engines, the
reports and the captured lines are put together in the order of the events. -/
theorem Told.cons {s m t : Session Double} {event : Event Double} {events : List (Event Double)}
    {sentences : List (State × List UInt8)}
    (hStep : Advances arithmetic longBits s event m sentences)
    (h : Told arithmetic longBits m events t) : Told arithmetic longBits s (event :: events) t where
  engine := by
    rw [h.engine, hStep.engine]
    rfl
  chipId := h.chipId.trans hStep.chipId
  firstOpen := by rw [h.firstOpen, hStep.firstOpen, List.any_cons, Bool.or_assoc]
  svState := by rw [getLastD_filterMap_cons, ← hStep.svState, h.svState]
  fixStatus := by
    rw [h.fixStatus, hStep.fixStatus]
    cases hLocation : event.location with
    | none => rw [List.filterMap_cons_none hLocation, Option.isSome_none, Bool.or_false]
    | some location => simp [List.filterMap_cons_some hLocation]
  location := by rw [getLastD_filterMap_cons, ← hStep.location, h.location]
  cwcnValue := by
    rw [hStep.heard_cons, reports_append, List.filterMap_append, getLastD_append,
      ← (foldl_note s.values _).1, ← hStep.values, h.cwcnValue]
  tcxoValue := by
    rw [hStep.heard_cons, reports_append, List.filterMap_append, getLastD_append,
      ← (foldl_note s.values _).2, ← hStep.values, h.tcxoValue]
  capture := by
    rw [hStep.heard_cons, captured_append, run_append, hStep.capture, Option.bind_some,
      ← hStep.chipId, h.capture]

/-- The run lemma: a session is what its events have left of it. -/
theorem told_run {s t : Session Double} {events : List (Event Double)}
    (hRun : run (sessionStep arithmetic longBits) s events = some t) :
    Told arithmetic longBits s events t := by
  induction events generalizing s with
  | nil => exact Option.some.inj hRun ▸ Told.refl s
  | cons event events ih =>
      obtain ⟨m, hStep, hRest⟩ := Option.bind_eq_some_iff.mp hRun
      obtain ⟨sentences, hAdvances⟩ := sessionStep_advances hStep
      exact (ih hRest).cons hAdvances

/-- Behind a run the receiver is what its events have told, from the first
one on. By induction on the events. -/
theorem told_receiver {chipId : ChipId} {s : Session Double} {events : List (Event Double)}
    (hRun : run (sessionStep arithmetic longBits) (.init arithmetic chipId) events = some s) :
    s.receiver arithmetic = told arithmetic longBits chipId events := by
  have h := told_run hRun
  obtain ⟨capture, hCapture, hTracks⟩ | ⟨hNone, -⟩ := run_cwDataCapture
    (captured chipId (heard longBits .init false events))
  · obtain rfl : s.capture = capture := Option.some.inj (h.capture.symm.trans hCapture)
    have hCn0 : s.cn0 arithmetic = (((captures (captured chipId (heard longBits .init false
        events))).all.flatMap readWindows).map arithmetic.signal).getLastD 0 := by
      rw [Session.cn0, hTracks.windows, List.getLastD_eq_getLast?, List.getLast?_map]
      split <;> next hLast => simp [hLast]
    rw [Session.receiver, told, h.svState, h.fixStatus, hCn0, h.chipId, h.cwcnValue, h.tcxoValue]
    congr
    · exact congrArg Prod.fst h.location
    · exact congrArg Prod.snd h.location
  · cases hNone.symm.trans h.capture

/-- A call of the interface, which has its functions only behind the end of
`get_init_mode`. -/
def Event.calls : Event Double → Bool
  | .setGpsMode _ | .gpsExportStart | .gpsExportStop | .gpsEutParse _ => true
  | _ => false

/-- The calls of the interface come behind the end of `get_init_mode`. -/
def InOrder : Bool → List (Event Double) → Prop
  | _, [] => True
  | firstOpen, event :: events =>
      (event.calls = true → firstOpen = true) ∧ InOrder (firstOpen || event.opens) events

/-- A session is open exactly behind the call that gets its mode. -/
theorem opened_isSome {s : Session Double} {engine : State} :
    (s.opened engine).isSome = true ↔ s.firstOpen = true := by
  unfold Session.opened
  split_ifs with hOpen
  · exact iff_of_true rfl hOpen
  · exact iff_of_false Bool.false_ne_true hOpen

/-- `nmea_parse` is undefined only where it captures a line that cannot be
counted or read. -/
theorem nmeaParse_eq_none {s : Session Double} {sentence : List UInt8} {tzer : NmeaTokenizer}
    (h : nmeaParse arithmetic s sentence tzer = none) :
    captured s.chipId [(s.engine, sentence)] = [sentence] ∧
      cwDataCapture s.capture sentence = none := by
  unfold nmeaParse at h
  split_ifs at h with hCapture
  rw [captured_singleton, if_pos hCapture]
  exact ⟨rfl, Option.map_eq_none_iff.mp h⟩

/-- A step is undefined where a call comes too early, or a captured line
cannot be read. -/
theorem sessionStep_eq_none {s : Session Double} {event : Event Double}
    (hStep : sessionStep arithmetic longBits s event = none) (events : List (Event Double)) :
    ¬(InOrder s.firstOpen (event :: events) ∧ (run cwDataCapture s.capture (captured s.chipId
      (heard longBits s.engine s.firstOpen (event :: events)))).isSome = true) := by
  rintro ⟨⟨hCalls, -⟩, hCaptured⟩
  have hEarly {engine : State} (hNone : s.opened engine = none) : s.firstOpen ≠ true := by
    intro hOpen
    have hSome : (s.opened engine).isSome = true := opened_isSome.mpr hOpen
    rw [hNone] at hSome
    cases hSome
  cases event with
  | nmeaCallback sentence tzer =>
      have hUnread (reported : List (List UInt8))
          (hNone : nmeaParse arithmetic { s with reported } sentence tzer = none)
          (hOpen : s.firstOpen = true) : False := by
        obtain ⟨hLine, hCapture⟩ := nmeaParse_eq_none hNone
        have hHeard : heard longBits s.engine true (.nmeaCallback sentence tzer :: events) =
            [(s.engine, sentence)] ++ heard longBits s.engine true events := rfl
        rw [hOpen, hHeard, captured_append, hLine, List.singleton_append, run_cons, hCapture]
          at hCaptured
        cases hCaptured
      rw [sessionStep, nmeaCallback] at hStep
      split_ifs at hStep with hClosed hReports
      · exact hUnread _ hStep (Bool.eq_true_of_not_eq_false hClosed)
      · exact hUnread _ hStep (Bool.eq_true_of_not_eq_false hClosed)
  | locationCallback latitude longitude => cases hStep
  | svStatusCallback svs => cases hStep
  | getInitMode => cases hStep
  | setReportPtr set => cases hStep
  | setGpsMode mode => exact hEarly hStep (hCalls rfl)
  | gpsExportStart => exact hEarly hStep (hCalls rfl)
  | gpsExportStop => exact hEarly hStep (hCalls rfl)
  | gpsEutParse line => exact hEarly hStep (hCalls rfl)

/-- A call that is carried out does not come too early. -/
theorem firstOpen_of_calls {s m : Session Double} {event : Event Double}
    (hStep : sessionStep arithmetic longBits s event = some m) (hCalls : event.calls = true) :
    s.firstOpen = true := by
  have hOpened {engine : State} (hSome : s.opened engine = some m) : s.firstOpen = true :=
    opened_isSome.mp (Option.isSome_of_eq_some hSome)
  cases event with
  | setGpsMode mode => exact hOpened hStep
  | gpsExportStart => exact hOpened hStep
  | gpsExportStop => exact hOpened hStep
  | gpsEutParse line => exact hOpened hStep
  | _ => cases hCalls

/-- A session is defined where its calls come in order and its captured
lines can be read. -/
theorem sessionRun_isSome {s : Session Double} {events : List (Event Double)} :
    (run (sessionStep arithmetic longBits) s events).isSome = true ↔
      InOrder s.firstOpen events ∧ (run cwDataCapture s.capture (captured s.chipId
        (heard longBits s.engine s.firstOpen events))).isSome = true := by
  induction events generalizing s with
  | nil => exact iff_of_true rfl ⟨trivial, rfl⟩
  | cons event events ih =>
      rw [run_cons]
      cases hStep : sessionStep arithmetic longBits s event with
      | none => exact iff_of_false Bool.false_ne_true (sessionStep_eq_none hStep events)
      | some m =>
          obtain ⟨sentences, hAdvances⟩ := sessionStep_advances hStep
          rw [Option.bind_some, ih, hAdvances.heard_cons, captured_append, run_append,
            hAdvances.capture, Option.bind_some, hAdvances.chipId, InOrder, hAdvances.firstOpen]
          exact and_congr_left' (iff_and_self.mpr fun _ => firstOpen_of_calls hStep)

/-- Numbers in millionths. -/
def fixedPoint : Arithmetic Int where
  toDoubles := millionths
  zero := 0
  strtod := strtol 32
  signal := fun _ => 0

/-- The command is split at its equals sign into the name and one argument. -/
theorem getSubStrColon_search : getSubStrColon (ascii "AT+SPGPSTEST=SEARCH,1") =
    some ⟨ascii "SEARCH", [ascii "1"], ascii "AT+SPGPSTEST=SEARCH,1"⟩ := by
  decide

/-- `SEARCH,1` behind the initialisation. -/
def searchEvents : List (Event Int) :=
  [.getInitMode, .gpsEutParse ⟨_, _, getSubStrColon_search, 0, fun _ => 0⟩]

def rssiLine : CommandLine Int :=
  ⟨ascii "AT+SPGPSTEST=RSSI?,0", ⟨ascii "RSSI?", [ascii "0"], ascii "AT+SPGPSTEST=RSSI?,0"⟩,
    by decide, 0, fun _ => 0⟩

/-- The tokens of an array that is cleared. -/
def noTokens : NmeaTokenizer := ⟨0, Vector.replicate maxNmeaTokens ⟨0, 0⟩⟩

/-- A sentence with the signal of the CW test, its checksum and its newline. -/
def cwcnSentence (n : Nat) (high low : UInt8) : List UInt8 :=
  ascii "$PCGDS,CWCN0," ++ write 10 n ++ [star, high, low, carriageReturn, lineFeed]

/-- A location, the satellites, and a signal behind the initialisation and
`SEARCH,1`. -/
def reportedEvents : List (Event Int) :=
  searchEvents ++ [.locationCallback 48000000 11000000, .svStatusCallback [⟨5, 40000000⟩],
    .nmeaCallback (cwcnSentence 45 0x37 0x30) noTokens]

/-- Between the dollar and the checksum stand the identifier of the sentence
and the number. -/
theorem body_cwcnSentence (n : Nat) (high low : UInt8) :
    body (cwcnSentence n high low) =
      ascii "PCGDS" ++ comma :: (ascii "CWCN0" ++ comma :: write 10 n) := by
  have hDollar : dropDollar (cwcnSentence n high low) =
      ascii "PCGDS,CWCN0," ++ write 10 n ++ [star, high, low, carriageReturn, lineFeed] := rfl
  rw [body, hDollar, List.reverse_append]
  change (dropChecksum (low :: high :: star ::
    (ascii "PCGDS,CWCN0," ++ write 10 n).reverse)).reverse = _
  rw [dropChecksum, if_pos rfl, List.reverse_reverse]
  rfl

/-- The sentence reports its number, whatever checksum it has. -/
theorem report_cwcnSentence (n : Nat) (high low : UInt8) :
    report arithmetic (cwcnSentence n high low) = some (.cwcn (Int32.ofNat n)) := by
  have hDigits : ∀ c ∈ write 10 n, digitValue c < 10 := by
    intro c hc
    obtain ⟨d, hd, rfl⟩ := exists_digit (by decide) hc
    rwa [digitValue_digit (by omega)]
  have hComma : comma ∉ write 10 n := fun hMem => absurd (hDigits comma hMem) (by decide)
  have hValue : valueOf 10 (write 10 n) = n := by
    have hScan : scan 10 0 (write 10 n ++ []) = n := scan_write (by decide) (by decide) n (by simp)
    rw [List.append_nil, scan_digits hDigits] at hScan
    simpa using hScan
  have hFields : fields (body (cwcnSentence n high low)) =
      [ascii "PCGDS", ascii "CWCN0", write 10 n] := by
    rw [body_cwcnSentence, fields_append (by decide), fields_append (by decide),
      fields_of_notMem hComma]
  have hNumber : number (write 10 n) = Int32.ofNat n := by rw [number, if_pos hDigits, hValue]
  rw [report, hFields]
  simp only [List.getD_cons_zero, List.getD_cons_succ, reportOf, hNumber]
  rw [if_pos ⟨by decide, write_ne_nil 10 n⟩, if_pos (by decide)]

theorem mem_heard {s : State} {firstOpen : Bool} {events : List (Event Double)}
    {x : State × List UInt8} (h : x ∈ heard longBits s firstOpen events) :
    ∃ tzer, .nmeaCallback x.2 tzer ∈ events := by
  fun_induction heard longBits s firstOpen events with
  | case1 => cases h
  | case2 s firstOpen events ih =>
      obtain ⟨tzer, hMem⟩ := ih h
      exact ⟨tzer, List.mem_cons_of_mem _ hMem⟩
  | case3 s sentence tzer events ih =>
      rcases List.mem_cons.mp h with rfl | hRest
      · exact ⟨tzer, List.mem_cons_self⟩
      · obtain ⟨tzer, hMem⟩ := ih hRest
        exact ⟨tzer, List.mem_cons_of_mem _ hMem⟩
  | case4 s firstOpen event events hInit hNmea ih =>
      obtain ⟨tzer, hMem⟩ := ih h
      exact ⟨tzer, List.mem_cons_of_mem _ hMem⟩

/-- The signal that a sentence gives is the one that `RSSI?` gives, until
another sentence gives one. -/
theorem rssi_roundTrip {before behind : List (Event Double)} {n : Nat} {high low : UInt8}
    {tzer : NmeaTokenizer} {s : Session Double} {line : CommandLine Double} {data subData : Int32}
    (hRun : run (sessionStep arithmetic longBits) (.init arithmetic .greenEyeI)
      (before ++ .nmeaCallback (cwcnSentence n high low) tzer :: behind) = some s)
    (hOpen : before.any Event.opens = true)
    (hBehind : ∀ sentence tzer, .nmeaCallback sentence tzer ∈ behind →
      (report arithmetic sentence).bind Report.cwcnValue = none)
    (hn : n < 2 ^ 31) (hLine : dispatch longBits line.pieces = some (.rssi, data, subData)) :
    s.answer arithmetic longBits line =
      searching s.engine ⟨s.engine, some (eutGpsRssiReq ++ decimal n), [.rssi]⟩ := by
  rw [run_append] at hRun
  obtain ⟨m, hBefore, hRest⟩ := Option.bind_eq_some_iff.mp hRun
  have hFirst := told_run hBefore
  have hSecond := told_run hRest
  have hOpened : m.firstOpen = true := by rw [hFirst.firstOpen, hOpen, Bool.or_true]
  have hQuiet : (reports arithmetic (heard longBits m.engine true behind)).filterMap
      Report.cwcnValue = [] := by
    rw [reports, List.filterMap_filterMap, List.filterMap_eq_nil_iff]
    intro x hx
    obtain ⟨tzer, hMem⟩ := mem_heard hx
    exact hBehind x.2 tzer hMem
  have hHeard : heard longBits m.engine m.firstOpen
      (.nmeaCallback (cwcnSentence n high low) tzer :: behind) =
        [(m.engine, cwcnSentence n high low)] ++ heard longBits m.engine true behind := by
    rw [hOpened]
    rfl
  have hValue : s.values.cwcnValue = Int32.ofNat n := by
    rw [hSecond.cwcnValue, hHeard, reports_append, List.filterMap_append, hQuiet, List.append_nil]
    simp [reports, report_cwcnSentence, Report.cwcnValue]
  have hChip : s.chipId = .greenEyeI := hSecond.chipId.trans hFirst.chipId
  have hPieces : (line.request (s.receiver arithmetic)).pieces = line.pieces := rfl
  rw [Session.answer, gpsEutParse, hPieces, hLine]
  have hReceiver : (line.request (s.receiver arithmetic)).receiver.chipId = .greenEyeI ∧
      (line.request (s.receiver arithmetic)).receiver.cwcnValue = Int32.ofNat n := ⟨hChip, hValue⟩
  change cwcnParse s.engine (line.request (s.receiver arithmetic)).receiver = _
  rw [cwcnParse, if_pos hReceiver.1, hReceiver.2, Int32.toInt_ofNat_of_lt hn]

/-- A search is started, the sentence comes with 45, and the query answers
45. -/
theorem rssi_roundTrip_search : ∃ s, run (sessionStep fixedPoint 32)
    (.init fixedPoint .greenEyeI) (searchEvents ++ [.nmeaCallback (cwcnSentence 45 0x37 0x30)
      noTokens]) = some s ∧ s.answer fixedPoint 32 rssiLine =
        searching s.engine ⟨s.engine, some (eutGpsRssiReq ++ decimal (45 : Nat)), [.rssi]⟩ := by
  have hDefined : (run (sessionStep fixedPoint 32) (.init fixedPoint .greenEyeI)
      (searchEvents ++ [.nmeaCallback (cwcnSentence 45 0x37 0x30) noTokens])).isSome = true := by
    decide +kernel
  obtain ⟨s, hRun⟩ := Option.isSome_iff_exists.mp hDefined
  exact ⟨s, hRun, rssi_roundTrip hRun rfl (fun _ _ hMem => absurd hMem List.not_mem_nil)
    (by decide) (by decide +kernel : dispatch 32 rssiLine.pieces = some (.rssi, 0, 0))⟩

end Gnss
