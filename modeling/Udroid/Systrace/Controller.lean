import Mathlib.Data.List.Nodup

/-!
# The tracing controller

`tracing_controller.py`: the controller starts a set of tracing agents, sends those that
want it a clock sync marker, stops them and collects their results.  An agent answers a call
as it likes: with success, with a falsy value (also when the call times out), or with an
exception.

- `TracingController.startTracing`, `stopTracing`: the two calls of the controller.
- `Phase`: what may be asked of an agent, and when.
- `controller_legal`: whatever the agents answer, the controller keeps to it.
- `session_log`: all that a session asks, and in which order.
-/

namespace Udroid.Systrace

variable {A : Type}

/-! ## Section 1: Agents and calls -/

/-- What an agent can be asked: `StartAgentTracing`, `RecordClockSyncMarker`,
`StopAgentTracing` and `GetResults`. -/
inductive Request where
  | start
  | sync
  | stop
  | results
  deriving DecidableEq, Repr

/-- What comes back: something true, something falsy, or an exception. -/
inductive Answer where
  | ok
  | failed
  | raised
  deriving DecidableEq, Repr

/-- A request and its answer. -/
structure Entry (A : Type) where
  agent : A
  request : Request
  answer : Answer
  deriving DecidableEq, Repr

/-- The agents of a controller, each one an object of its own.  An answer may depend on all that
was asked before. -/
structure Tracing (A : Type) where
  controllerAgent : A
  childAgents : List A
  supportsExplicitClockSync : A → Bool
  answer : List (Entry A) → A → Request → Answer
  nodup : (controllerAgent :: childAgents).Nodup

/-- The fields of a `TracingController` that its calls change, and all that its agents were asked,
the last request last. -/
structure TracingController (A : Type) where
  childAgents : Option (List A) := none
  traceInProgress : Bool := false
  allResults : Option (List A) := none
  log : List (Entry A) := []

/-- What a call of the controller gives back: a true or falsy value, or an exception. -/
inductive Outcome where
  | returned (value : Bool)
  | raised
  deriving DecidableEq, Repr

/-- One request. -/
def Tracing.ask (T : Tracing A) (request : Request) (log : List (Entry A)) (a : A) : Entry A :=
  ⟨a, request, T.answer log a request⟩

/-- The loops of the controller: ask one agent after the other, up to the first exception, and
keep those that answer with success. -/
def Tracing.askAll (T : Tracing A) (request : Request) :
    List A → List (Entry A) → Option (List A) × List (Entry A)
  | [], log => (some [], log)
  | a :: as, log =>
      match (T.ask request log a).answer with
      | .ok =>
          let rest := T.askAll request as (log ++ [T.ask request log a])
          (rest.1.map (a :: ·), rest.2)
      | .failed => T.askAll request as (log ++ [T.ask request log a])
      | .raised => (none, log ++ [T.ask request log a])

/-- `StartTracing`. -/
def TracingController.startTracing (T : Tracing A) (s : TracingController A) :
    Outcome × TracingController A :=
  if s.traceInProgress then (.raised, s)
  else
    let first := T.ask .start s.log T.controllerAgent
    let s := { s with traceInProgress := true, log := s.log ++ [first] }
    match first.answer with
    | .raised => (.raised, s)
    | .failed => (.returned false, s)
    | .ok =>
        match T.askAll .start T.childAgents s.log with
        | (none, log) => (.raised, { s with log := log })
        | (some started, log) =>
            (.returned true, { s with log := log, childAgents := some started })

/-- The end of `StopTracing`: collect the results of the children that were stopped, and of the
controller's own agent. -/
def TracingController.collect (T : Tracing A) (s : TracingController A) (children : List A) :
    Outcome × TracingController A :=
  match T.askAll .results (children ++ [T.controllerAgent]) s.log with
  | (none, log) => (.raised, { s with log := log })
  | (some results, log) => (.returned true, { s with log := log, allResults := some results })

/-- The middle of `StopTracing`: stop the controller's own agent, and keep the children that were
stopped. -/
def TracingController.stopOwn (T : Tracing A) (s : TracingController A)
    (children stopped : List A) : Outcome × TracingController A :=
  let last := T.ask .stop s.log T.controllerAgent
  let s := { s with log := s.log ++ [last] }
  match last.answer with
  | .raised => (.raised, s)
  | .failed => (.returned false, s)
  | .ok =>
      let children := if stopped.length < children.length then stopped else children
      { s with childAgents := some children }.collect T children

/-- `StopTracing`: markers and stops for the children, and the rest.  Before any children were
set, the loop over them raises. -/
def TracingController.stopTracing (T : Tracing A) (s : TracingController A) :
    Outcome × TracingController A :=
  if !s.traceInProgress then (.raised, s)
  else
    let s := { s with traceInProgress := false }
    match s.childAgents with
    | none => (.raised, s)
    | some children =>
        match T.askAll .sync (children.filter T.supportsExplicitClockSync) s.log with
        | (none, log) => (.raised, { s with log := log })
        | (some _, log) =>
            match T.askAll .stop children log with
            | (none, log) => (.raised, { s with log := log })
            | (some stopped, log) => { s with log := log }.stopOwn T children stopped

/-! ## Section 2: One loop -/

variable {T : Tracing A}

/-- The agents that answered with success. -/
def okAgents (entries : List (Entry A)) : List A :=
  (entries.filter (fun e => decide (e.answer = .ok))).map (·.agent)

theorem okAgents_sublist (entries : List (Entry A)) :
    (okAgents entries).Sublist (entries.map (·.agent)) :=
  List.filter_sublist.map _

/-- What a loop adds to the log: a request to each agent in order, or, after an exception, to some
of the first of them. -/
theorem Tracing.askAll_log {request : Request} {as : List A} {log log' : List (Entry A)}
    {result : Option (List A)} (h : T.askAll request as log = (result, log')) :
    ∃ entries, log' = log ++ entries ∧ (∀ e ∈ entries, e.request = request) ∧
      entries.map (·.agent) <+: as ∧
      ∀ succ, result = some succ → entries.map (·.agent) = as ∧
        succ = okAgents entries ∧
        ∀ e ∈ entries, e.answer ≠ .raised := by
  induction as generalizing log log' result with
  | nil =>
    simp only [Tracing.askAll, Prod.mk.injEq] at h
    obtain ⟨rfl, rfl⟩ := h
    exact ⟨[], by simp, by simp, by simp, by simp [okAgents]⟩
  | cons a as ih =>
    have hagent : (T.ask request log a).agent = a := rfl
    have hrequest : (T.ask request log a).request = request := rfl
    rw [Tracing.askAll] at h
    cases hanswer : (T.ask request log a).answer with
    | ok =>
      simp only [hanswer, Prod.mk.injEq] at h
      obtain ⟨hresult, hlog⟩ := h
      have hloop : T.askAll request as (log ++ [T.ask request log a]) = (_, _) := rfl
      obtain ⟨entries, htail, hall, hbelow, hsome⟩ := ih hloop
      refine ⟨T.ask request log a :: entries, ?_, ?_, ?_, ?_⟩
      · rw [← hlog, htail, List.append_assoc, List.singleton_append]
      · simpa [hrequest] using hall
      · simpa [hagent] using hbelow
      · rintro succ rfl
        obtain ⟨rest, hrest, rfl⟩ := Option.map_eq_some_iff.mp hresult
        obtain ⟨hagents, rfl, hraised⟩ := hsome rest hrest
        exact ⟨by simp [hagent, hagents], by simp [okAgents, hanswer, hagent], by simpa [hanswer] using hraised⟩
    | failed =>
      simp only [hanswer] at h
      obtain ⟨entries, htail, hall, hbelow, hsome⟩ := ih h
      refine ⟨T.ask request log a :: entries, ?_, ?_, ?_, ?_⟩
      · rw [htail, List.append_assoc, List.singleton_append]
      · simpa [hrequest] using hall
      · simpa [hagent] using hbelow
      · intro succ hsucc
        obtain ⟨hagents, rfl, hraised⟩ := hsome succ hsucc
        exact ⟨by simp [hagent, hagents], by simp [okAgents, hanswer], by simpa [hanswer] using hraised⟩
    | raised =>
      simp only [hanswer, Prod.mk.injEq] at h
      obtain ⟨rfl, rfl⟩ := h
      exact ⟨[T.ask request log a], rfl, by simp [hrequest], by simp [hagent], by simp⟩

/-- The children that are left for the results are those that were stopped. -/
theorem stopped_of_sublist {stopped children : List A} (h : stopped.Sublist children) :
    (if stopped.length < children.length then stopped else children) = stopped := by
  split
  · rfl
  · rename_i hlen
    exact (h.eq_of_length_le (Nat.le_of_not_lt hlen)).symm

/-! ## Section 3: What may be asked when -/

/-- The life of an agent, as far as its answers tell. -/
inductive Phase where
  | idle
  | running
  | stopped
  deriving DecidableEq, Repr

/-- The next phase, or nothing where the request is out of order: a marker or a stop without a
start that succeeded, results without a stop that succeeded, or a start while running. -/
def Phase.next : Phase → Request → Answer → Option Phase
  | .running, .start, _ => none
  | _, .start, .ok => some .running
  | _, .start, _ => some .idle
  | .running, .sync, _ => some .running
  | .running, .stop, .ok => some .stopped
  | .running, .stop, _ => some .idle
  | .stopped, .results, _ => some .idle
  | _, _, _ => none

variable [DecidableEq A]

/-- The phase after one more entry of the log. -/
def Phase.follow (a : A) (phase : Option Phase) (e : Entry A) : Option Phase :=
  if e.agent = a then phase.bind fun p => p.next e.request e.answer else phase

/-- The phase of an agent after the log, if none of its requests was out of order. -/
def phaseOf (a : A) (log : List (Entry A)) : Option Phase :=
  log.foldl (Phase.follow a) (some .idle)

/-- No request of the log is out of order. -/
def Legal (log : List (Entry A)) : Prop :=
  ∀ a, phaseOf a log ≠ none

/-- The controllers that calls lead to, as long as none of them raises and each start succeeds. -/
inductive Reached (T : Tracing A) : TracingController A → Prop where
  | new : Reached T {}
  | start {s s' : TracingController A} : Reached T s →
      s.startTracing T = (.returned true, s') → Reached T s'
  | stop {s s' : TracingController A} {value : Bool} : Reached T s →
      s.stopTracing T = (.returned value, s') → Reached T s'

/-! ## Section 4: Phases along the log -/

theorem phaseOf_append (a : A) (log entries : List (Entry A)) :
    phaseOf a (log ++ entries) = entries.foldl (Phase.follow a) (phaseOf a log) :=
  List.foldl_append ..

theorem foldl_follow_of_notMem {a : A} {entries : List (Entry A)}
    (h : a ∉ entries.map (·.agent)) (phase : Option Phase) :
    entries.foldl (Phase.follow a) phase = phase := by
  induction entries generalizing phase with
  | nil => rfl
  | cons e entries ih =>
    simp only [List.map_cons, List.mem_cons, not_or] at h
    rw [List.foldl_cons, Phase.follow, if_neg (Ne.symm h.1)]
    exact ih h.2 phase

/-- An agent that is not asked stays in its phase. -/
theorem phaseOf_of_notMem {a : A} {log entries : List (Entry A)}
    (h : a ∉ entries.map (·.agent)) : phaseOf a (log ++ entries) = phaseOf a log := by
  rw [phaseOf_append, foldl_follow_of_notMem h]

/-- An agent that is asked once makes one step. -/
theorem phaseOf_of_mem {log entries : List (Entry A)} (hnodup : (entries.map (·.agent)).Nodup)
    {e : Entry A} (he : e ∈ entries) :
    phaseOf e.agent (log ++ entries) =
      (phaseOf e.agent log).bind fun p => p.next e.request e.answer := by
  rw [phaseOf_append]
  generalize phaseOf e.agent log = phase
  induction entries generalizing phase with
  | nil => simp at he
  | cons d entries ih =>
    obtain ⟨hnotMem, hrest⟩ := List.nodup_cons.mp hnodup
    rw [List.foldl_cons, Phase.follow]
    rcases List.mem_cons.mp he with rfl | he
    · rw [if_pos rfl, foldl_follow_of_notMem hnotMem]
    · have hne : d.agent ≠ e.agent := by
        intro heq
        have hmem : d.agent ∈ entries.map (·.agent) := heq ▸ List.mem_map_of_mem he
        exact hnotMem hmem
      rw [if_neg hne]
      exact ih hrest he phase

/-- Requests in order leave a legal log legal. -/
theorem Legal.append {log entries : List (Entry A)} (h : Legal log)
    (hnodup : (entries.map (·.agent)).Nodup)
    (horder : ∀ e ∈ entries, ∀ p, phaseOf e.agent log = some p → p.next e.request e.answer ≠ none) :
    Legal (log ++ entries) := by
  intro a
  by_cases ha : a ∈ entries.map (·.agent)
  · obtain ⟨e, he, rfl⟩ := List.mem_map.mp ha
    obtain ⟨p, hp⟩ := Option.ne_none_iff_exists'.mp (h e.agent)
    rw [phaseOf_of_mem hnodup he, hp, Option.bind_some]
    exact horder e he p hp
  · rw [phaseOf_of_notMem ha]
    exact h a

/-- Just the agents `running` are running. -/
def Running (running : List A) (log : List (Entry A)) : Prop :=
  ∀ a, phaseOf a log = some .running ↔ a ∈ running

theorem Phase.next_start {p : Phase} (h : p ≠ .running) (answer : Answer) :
    p.next .start answer = some (if answer = .ok then .running else .idle) := by
  cases p <;> cases answer <;> first | rfl | exact absurd rfl h

theorem Phase.next_stop (answer : Answer) :
    Phase.next .running .stop answer = some (if answer = .ok then .stopped else .idle) := by
  cases answer <;> rfl

theorem Running.start {running : List A} {log entries : List (Entry A)} (hlegal : Legal log)
    (hrun : Running running log) (hnodup : (entries.map (·.agent)).Nodup)
    (hrequest : ∀ e ∈ entries, e.request = .start) (hnew : ∀ e ∈ entries, e.agent ∉ running) :
    Legal (log ++ entries) ∧ Running (running ++ okAgents entries) (log ++ entries) := by
  have hidle : ∀ e ∈ entries, phaseOf e.agent log ≠ some .running :=
    fun e he hp => hnew e he ((hrun e.agent).mp hp)
  have hnext : ∀ e ∈ entries, ∀ p, phaseOf e.agent log = some p →
      p.next e.request e.answer = some (if e.answer = .ok then .running else .idle) := by
    intro e he p hp
    rw [hrequest e he]
    exact Phase.next_start (fun heq => hidle e he (heq ▸ hp)) e.answer
  refine ⟨hlegal.append hnodup fun e he p hp => by simp [hnext e he p hp], fun a => ?_⟩
  by_cases ha : a ∈ entries.map (·.agent)
  · obtain ⟨e, he, rfl⟩ := List.mem_map.mp ha
    obtain ⟨p, hp⟩ := Option.ne_none_iff_exists'.mp (hlegal e.agent)
    rw [phaseOf_of_mem hnodup he, hp, Option.bind_some, hnext e he p hp]
    -- of the entries only this one is about the agent
    have hmem : e.agent ∈ okAgents entries ↔ e.answer = .ok := by
      simp only [okAgents, List.mem_map, List.mem_filter, decide_eq_true_eq]
      constructor
      · rintro ⟨d, ⟨hd, hok⟩, heq⟩
        obtain rfl := List.inj_on_of_nodup_map hnodup hd he heq
        exact hok
      · exact fun hok => ⟨e, ⟨he, hok⟩, rfl⟩
    rw [List.mem_append, hmem]
    by_cases hok : e.answer = .ok <;> simp [hok, hnew e he]
  · have hmem : a ∉ okAgents entries := by
      intro hok
      obtain ⟨e, he, rfl⟩ := List.mem_map.mp hok
      exact ha (List.mem_map_of_mem (List.mem_of_mem_filter he))
    rw [phaseOf_of_notMem ha, hrun a]
    simp [hmem]

theorem Running.sync {running : List A} {log entries : List (Entry A)} (hlegal : Legal log)
    (hrun : Running running log) (hnodup : (entries.map (·.agent)).Nodup)
    (hrequest : ∀ e ∈ entries, e.request = .sync) (hmem : ∀ e ∈ entries, e.agent ∈ running) :
    Legal (log ++ entries) ∧ Running running (log ++ entries) := by
  have hp : ∀ e ∈ entries, phaseOf e.agent log = some .running :=
    fun e he => (hrun e.agent).mpr (hmem e he)
  have hnext : ∀ e ∈ entries, Phase.next .running e.request e.answer = some .running := by
    intro e he
    rw [hrequest e he]
    rfl
  refine ⟨hlegal.append hnodup fun e he p hp' => ?_, fun a => ?_⟩
  · obtain rfl := Option.some.inj ((hp e he).symm.trans hp')
    simp [hnext e he]
  · by_cases ha : a ∈ entries.map (·.agent)
    · obtain ⟨e, he, rfl⟩ := List.mem_map.mp ha
      rw [phaseOf_of_mem hnodup he, hp e he, Option.bind_some, hnext e he]
      simp [hmem e he]
    · rw [phaseOf_of_notMem ha, hrun a]

theorem Running.stop {running : List A} {log entries : List (Entry A)} (hlegal : Legal log)
    (hrun : Running running log) (hnodup : (entries.map (·.agent)).Nodup)
    (hrequest : ∀ e ∈ entries, e.request = .stop) (hmem : ∀ e ∈ entries, e.agent ∈ running) :
    Legal (log ++ entries) ∧
      Running (running.filter (fun a => decide (a ∉ entries.map (·.agent)))) (log ++ entries) ∧
      ∀ a ∈ okAgents entries, phaseOf a (log ++ entries) = some .stopped := by
  have hphase : ∀ e ∈ entries, phaseOf e.agent (log ++ entries) =
      some (if e.answer = .ok then .stopped else .idle) := by
    intro e he
    rw [phaseOf_of_mem hnodup he, (hrun e.agent).mpr (hmem e he), Option.bind_some, hrequest e he,
      Phase.next_stop]
  refine ⟨hlegal.append hnodup fun e he p hp => ?_, fun a => ?_, fun a ha => ?_⟩
  · obtain rfl := Option.some.inj (((hrun e.agent).mpr (hmem e he)).symm.trans hp)
    simp [hrequest e he, Phase.next_stop]
  · by_cases ha : a ∈ entries.map (·.agent)
    · obtain ⟨e, he, rfl⟩ := List.mem_map.mp ha
      rw [hphase e he]
      refine iff_of_false ?_ fun hleft => of_decide_eq_true (List.mem_filter.mp hleft).2 ha
      by_cases hok : e.answer = .ok <;> simp [hok]
    · rw [phaseOf_of_notMem ha, hrun a]
      simp only [List.mem_filter, decide_eq_true_eq]
      exact ⟨fun h => ⟨h, ha⟩, fun h => h.1⟩
  · obtain ⟨e, he, rfl⟩ := List.mem_map.mp ha
    obtain ⟨he, hok⟩ := List.mem_filter.mp he
    rw [hphase e he, if_pos (of_decide_eq_true hok)]

theorem Running.results {running : List A} {log entries : List (Entry A)} (hlegal : Legal log)
    (hrun : Running running log) (hnodup : (entries.map (·.agent)).Nodup)
    (hrequest : ∀ e ∈ entries, e.request = .results)
    (hstopped : ∀ e ∈ entries, phaseOf e.agent log = some .stopped) :
    Legal (log ++ entries) ∧ Running running (log ++ entries) := by
  have hnext : ∀ e ∈ entries, Phase.next .stopped e.request e.answer = some .idle := by
    intro e he
    rw [hrequest e he]
    rfl
  refine ⟨hlegal.append hnodup fun e he p hp => ?_, fun a => ?_⟩
  · obtain rfl := Option.some.inj ((hstopped e he).symm.trans hp)
    simp [hnext e he]
  · by_cases ha : a ∈ entries.map (·.agent)
    · obtain ⟨e, he, rfl⟩ := List.mem_map.mp ha
      rw [phaseOf_of_mem hnodup he, hstopped e he, Option.bind_some, hnext e he, ← hrun e.agent,
        hstopped e he]
      simp
    · rw [phaseOf_of_notMem ha, hrun a]

/-! ## Section 5: The two calls -/

/-- The controller between its calls: nothing was asked out of order, and the agents that run are
its own and, of the children, those it keeps. -/
structure Sound (T : Tracing A) (s : TracingController A) : Prop where
  legal : Legal s.log
  running : ∃ running, Running running s.log ∧
    if s.traceInProgress then
      ∃ children, s.childAgents = some children ∧ children.Sublist T.childAgents ∧
        running = T.controllerAgent :: children
    else running = []

theorem Sound.new (T : Tracing A) : Sound T {} where
  legal := by simp [Legal, phaseOf]
  running := ⟨[], by simp [Running, phaseOf], by simp⟩

/-- The first request to start, to the controller's own agent. -/
theorem Sound.ask_start {s : TracingController A} (h : Sound T s)
    (hprogress : s.traceInProgress = false) :
    let first := T.ask .start s.log T.controllerAgent
    Legal (s.log ++ [first]) ∧ Running (okAgents [first]) (s.log ++ [first]) := by
  obtain ⟨running, hrun, hcond⟩ := h.running
  simp only [hprogress, Bool.false_eq_true, if_false] at hcond
  subst hcond
  exact hrun.start h.legal (by simp) (by simp [Tracing.ask]) (by simp)

/-- `StartTracing` asks nothing out of order, and after a success the controller is sound. -/
theorem Sound.start {s s' : TracingController A} {outcome : Outcome} (h : Sound T s)
    (hcall : s.startTracing T = (outcome, s')) :
    Legal s'.log ∧ (outcome = .returned true → Sound T s') := by
  unfold TracingController.startTracing at hcall
  split at hcall
  · obtain ⟨rfl, rfl⟩ := Prod.mk.inj hcall
    exact ⟨h.legal, by simp⟩
  · rename_i hprogress
    obtain ⟨hlegal, hrun⟩ := h.ask_start (by simpa using hprogress)
    simp only at hcall hlegal hrun
    split at hcall
    · obtain ⟨rfl, rfl⟩ := Prod.mk.inj hcall
      exact ⟨hlegal, by simp⟩
    · obtain ⟨rfl, rfl⟩ := Prod.mk.inj hcall
      exact ⟨hlegal, by simp⟩
    · rename_i hok
      -- the children are not the controller's agent, and start from whatever phase they are in
      have hchildren : ∀ {result log}, T.askAll .start T.childAgents
          (s.log ++ [T.ask .start s.log T.controllerAgent]) = (result, log) →
          ∃ entries, log = s.log ++ [T.ask .start s.log T.controllerAgent] ++ entries ∧
            Legal log ∧ Running (T.controllerAgent :: okAgents entries) log ∧
            (entries.map (·.agent)).Sublist T.childAgents ∧
            ∀ succ, result = some succ → succ = okAgents entries := by
        intro result log hloop
        obtain ⟨entries, rfl, hrequest, hbelow, hsome⟩ := Tracing.askAll_log hloop
        have hself : okAgents [T.ask .start s.log T.controllerAgent] = [T.controllerAgent] := by
          simp only [okAgents, List.filter_singleton, hok, decide_true]
          rfl
        rw [hself] at hrun
        obtain ⟨hcontroller, hnodup⟩ := List.nodup_cons.mp T.nodup
        have hnew : ∀ e ∈ entries, e.agent ∉ [T.controllerAgent] := by
          intro e he heq
          rw [List.mem_singleton] at heq
          exact hcontroller (heq ▸ hbelow.subset (List.mem_map_of_mem he))
        obtain ⟨hlegal', hrun'⟩ := hrun.start hlegal (hbelow.sublist.nodup hnodup) hrequest hnew
        exact ⟨entries, rfl, hlegal', hrun', hbelow.sublist, fun succ hsucc => (hsome succ hsucc).2.1⟩
      split at hcall
      · rename_i log hloop
        obtain ⟨rfl, rfl⟩ := Prod.mk.inj hcall
        obtain ⟨entries, -, hlegal', -, -, -⟩ := hchildren hloop
        exact ⟨hlegal', by simp⟩
      · rename_i started log hloop
        obtain ⟨rfl, rfl⟩ := Prod.mk.inj hcall
        obtain ⟨entries, -, hlegal', hrun', hsub, hsucc⟩ := hchildren hloop
        refine ⟨hlegal', fun _ => ⟨hlegal', _, hrun', ?_⟩⟩
        obtain rfl := hsucc started rfl
        simpa using (okAgents_sublist entries).trans hsub

/-- The markers and the stops of the children, up to an exception. -/
theorem stop_children {log : List (Entry A)} {children : List A} (hlegal : Legal log)
    (hrun : Running (T.controllerAgent :: children) log)
    (hnodup : (T.controllerAgent :: children).Nodup) {log₁ log₂ : List (Entry A)}
    {marked stopped : Option (List A)}
    (hsync : T.askAll .sync (children.filter T.supportsExplicitClockSync) log = (marked, log₁))
    (hstop : T.askAll .stop children log₁ = (stopped, log₂)) :
    Legal log₁ ∧ Legal log₂ ∧ ∀ succ, stopped = some succ →
      succ.Sublist children ∧ Running [T.controllerAgent] log₂ ∧
        ∀ a ∈ succ, phaseOf a log₂ = some .stopped := by
  obtain ⟨hcontroller, hchildren⟩ := List.nodup_cons.mp hnodup
  obtain ⟨marks, rfl, hmarks, hmarksPrefix, -⟩ := Tracing.askAll_log hsync
  have hmarksNodup : (marks.map (·.agent)).Nodup :=
    hmarksPrefix.sublist.nodup (hchildren.filter _)
  obtain ⟨hlegal₁, hrun₁⟩ := hrun.sync hlegal hmarksNodup hmarks (by
    intro e he
    have hmem := hmarksPrefix.subset (List.mem_map_of_mem he)
    exact List.mem_cons_of_mem _ (List.mem_of_mem_filter hmem))
  obtain ⟨stops, rfl, hstops, hstopsPrefix, hsome⟩ := Tracing.askAll_log hstop
  obtain ⟨hlegal₂, hrun₂, hstopped⟩ := hrun₁.stop hlegal₁ (hstopsPrefix.sublist.nodup hchildren)
    hstops fun e he => List.mem_cons_of_mem _ (hstopsPrefix.subset (List.mem_map_of_mem he))
  refine ⟨hlegal₁, hlegal₂, fun succ hsucc => ?_⟩
  obtain ⟨hall, rfl, -⟩ := hsome succ hsucc
  refine ⟨hall ▸ okAgents_sublist stops, ?_, hstopped⟩
  -- of those that ran, only the controller's own agent was not asked to stop
  rw [hall, List.filter_cons_of_pos (by simpa using hcontroller)] at hrun₂
  have hnone : children.filter (fun a => decide (a ∉ children)) = [] := by
    rw [List.filter_eq_nil_iff]
    intro a ha
    simpa using ha
  rwa [hnone] at hrun₂

/-- The results are asked of agents that were stopped. -/
theorem collect_sound {s s' : TracingController A} {children : List A} {outcome : Outcome}
    (hlegal : Legal s.log) (hrun : Running [] s.log) (hprogress : s.traceInProgress = false)
    (hnodup : (children ++ [T.controllerAgent]).Nodup)
    (hstopped : ∀ a ∈ children ++ [T.controllerAgent], phaseOf a s.log = some .stopped)
    (hcall : s.collect T children = (outcome, s')) : Sound T s' := by
  cases hloop : T.askAll .results (children ++ [T.controllerAgent]) s.log with
  | mk results log =>
    obtain ⟨entries, rfl, hrequest, hbelow, -⟩ := Tracing.askAll_log hloop
    obtain ⟨hlegal', hrun'⟩ := hrun.results hlegal (hbelow.sublist.nodup hnodup) hrequest
      fun e he => hstopped _ (hbelow.subset (List.mem_map_of_mem he))
    simp only [TracingController.collect, hloop] at hcall
    cases results with
    | none =>
      obtain ⟨rfl, rfl⟩ := Prod.mk.inj hcall
      exact ⟨hlegal', [], hrun', by simp [hprogress]⟩
    | some results =>
      obtain ⟨rfl, rfl⟩ := Prod.mk.inj hcall
      exact ⟨hlegal', [], hrun', by simp [hprogress]⟩

theorem stopOwn_sound {s s' : TracingController A} {children stopped : List A} {outcome : Outcome}
    (hlegal : Legal s.log) (hrun : Running [T.controllerAgent] s.log)
    (hprogress : s.traceInProgress = false) (hsub : stopped.Sublist children)
    (hnodup : (T.controllerAgent :: children).Nodup)
    (hstopped : ∀ a ∈ stopped, phaseOf a s.log = some .stopped)
    (hcall : s.stopOwn T children stopped = (outcome, s')) : Sound T s' := by
  obtain ⟨hcontroller, hchildren⟩ := List.nodup_cons.mp hnodup
  obtain ⟨hlegal', hrun', hown⟩ := hrun.stop hlegal
    (show ([T.ask .stop s.log T.controllerAgent].map (·.agent)).Nodup by simp)
    (by simp [Tracing.ask]) (by simp [Tracing.ask])
  have hnone : [T.controllerAgent].filter (fun a =>
      decide (a ∉ [T.ask .stop s.log T.controllerAgent].map (·.agent))) = [] := by
    simp [Tracing.ask]
  rw [hnone] at hrun'
  unfold TracingController.stopOwn at hcall
  simp only [stopped_of_sublist hsub] at hcall
  split at hcall
  · obtain ⟨rfl, rfl⟩ := Prod.mk.inj hcall
    exact ⟨hlegal', [], hrun', by simp [hprogress]⟩
  · obtain ⟨rfl, rfl⟩ := Prod.mk.inj hcall
    exact ⟨hlegal', [], hrun', by simp [hprogress]⟩
  · rename_i hok
    have hself : T.controllerAgent ∈ okAgents [T.ask .stop s.log T.controllerAgent] := by
      simp only [okAgents, List.filter_singleton, hok, decide_true]
      exact List.mem_singleton.mpr rfl
    refine collect_sound ?_ ?_ ?_ ?_ ?_ hcall
    · exact hlegal'
    · exact hrun'
    · exact hprogress
    · rw [List.nodup_append_comm]
      exact List.nodup_cons.mpr ⟨fun h => hcontroller (hsub.subset h), hsub.nodup hchildren⟩
    · intro a ha
      rcases List.mem_append.mp ha with ha | ha
      · -- a child is not asked by the stop of the controller's agent
        have hne : a ∉ [T.ask .stop s.log T.controllerAgent].map (·.agent) := by
          intro heq
          have heq' : a = T.controllerAgent := by simpa [Tracing.ask] using heq
          exact hcontroller (heq' ▸ hsub.subset ha)
        rw [phaseOf_of_notMem hne]
        exact hstopped a ha
      · obtain rfl := List.mem_singleton.mp ha
        exact hown _ hself

/-- `StopTracing` asks nothing out of order, and unless it raises the controller is sound. -/
theorem Sound.stop {s s' : TracingController A} {outcome : Outcome} (h : Sound T s)
    (hcall : s.stopTracing T = (outcome, s')) :
    Legal s'.log ∧ (∀ value, outcome = .returned value → Sound T s') := by
  unfold TracingController.stopTracing at hcall
  split at hcall
  · obtain ⟨rfl, rfl⟩ := Prod.mk.inj hcall
    exact ⟨h.legal, by simp⟩
  · rename_i hprogress
    have hprogress : s.traceInProgress = true := by simpa using hprogress
    obtain ⟨running, hrun, hcond⟩ := h.running
    rw [if_pos hprogress] at hcond
    obtain ⟨children, hsome, hsub, rfl⟩ := hcond
    have hnodup : (T.controllerAgent :: children).Nodup := (hsub.cons_cons _).nodup T.nodup
    simp only [hsome] at hcall
    cases hsync : T.askAll .sync (children.filter T.supportsExplicitClockSync) s.log with
    | mk marked log₁ =>
      cases hstop : T.askAll .stop children log₁ with
      | mk stopped log₂ =>
        obtain ⟨hlegal₁, hlegal₂, hstopped⟩ := stop_children h.legal hrun hnodup hsync hstop
        simp only [hsync] at hcall
        cases marked with
        | none =>
          obtain ⟨rfl, rfl⟩ := Prod.mk.inj hcall
          exact ⟨hlegal₁, by simp⟩
        | some marked =>
          simp only [hstop] at hcall
          cases stopped with
          | none =>
            obtain ⟨rfl, rfl⟩ := Prod.mk.inj hcall
            exact ⟨hlegal₂, by simp⟩
          | some stopped =>
            obtain ⟨hstoppedSub, hrun₂, hphase⟩ := hstopped stopped rfl
            have hsound := stopOwn_sound hlegal₂ hrun₂ rfl hstoppedSub hnodup hphase hcall
            exact ⟨hsound.legal, fun _ _ => hsound⟩

theorem Reached.sound {s : TracingController A} (h : Reached T s) : Sound T s := by
  induction h with
  | new => exact Sound.new T
  | start _ hcall ih => exact (ih.start hcall).2 rfl
  | stop _ hcall ih => exact (ih.stop hcall).2 _ rfl

omit [DecidableEq A]

/-- What one loop asks, and who answers: `agents` in order, none with an exception. -/
structure Asked (request : Request) (agents : List A) (entries : List (Entry A)) : Prop where
  request_eq : ∀ e ∈ entries, e.request = request
  agents_eq : entries.map (·.agent) = agents
  not_raised : ∀ e ∈ entries, e.answer ≠ .raised

theorem Tracing.askAll_some {request : Request} {as succ : List A} {log log' : List (Entry A)}
    (h : T.askAll request as log = (some succ, log')) :
    ∃ entries, log' = log ++ entries ∧ Asked request as entries ∧ succ = okAgents entries := by
  obtain ⟨entries, hlog, hrequest, -, hsome⟩ := Tracing.askAll_log h
  obtain ⟨hagents, hsucc, hraised⟩ := hsome succ rfl
  exact ⟨entries, hlog, ⟨hrequest, hagents, hraised⟩, hsucc⟩

/-- What a start that succeeds asks. -/
theorem startTracing_ok {s s' : TracingController A}
    (h : s.startTracing T = (.returned true, s')) :
    ∃ starts, s'.log = s.log ++ [⟨T.controllerAgent, .start, .ok⟩] ++ starts ∧
      Asked .start T.childAgents starts ∧ s'.childAgents = some (okAgents starts) := by
  unfold TracingController.startTracing at h
  split at h
  · cases h
  · simp only at h
    split at h
    · cases h
    · cases h
    · rename_i hok
      have hfirst : T.ask .start s.log T.controllerAgent = ⟨T.controllerAgent, .start, .ok⟩ := by
        rw [← hok]
        rfl
      rw [hfirst] at h
      split at h
      · cases h
      · rename_i started log hloop
        obtain ⟨-, rfl⟩ := Prod.mk.inj h
        obtain ⟨starts, rfl, hasked, rfl⟩ := Tracing.askAll_some hloop
        exact ⟨starts, rfl, hasked, rfl⟩

/-- What a stop that gives results asks. -/
theorem stopTracing_ok {s s' : TracingController A} {children : List A}
    (hchildren : s.childAgents = some children) (h : s.stopTracing T = (.returned true, s')) :
    ∃ syncs stops results, s'.log = s.log ++ syncs ++ stops ++ [⟨T.controllerAgent, .stop, .ok⟩] ++
        results ∧
      Asked .sync (children.filter T.supportsExplicitClockSync) syncs ∧
      Asked .stop children stops ∧
      Asked .results (okAgents stops ++ [T.controllerAgent]) results ∧
      s'.allResults = some (okAgents results) := by
  unfold TracingController.stopTracing at h
  split at h
  · cases h
  · simp only [hchildren] at h
    split at h
    · cases h
    · rename_i marked log hsync
      obtain ⟨syncs, rfl, hsyncs, -⟩ := Tracing.askAll_some hsync
      split at h
      · cases h
      · rename_i stopped log hstop
        obtain ⟨stops, rfl, hstops, rfl⟩ := Tracing.askAll_some hstop
        have hsub : (okAgents stops).Sublist children := hstops.agents_eq ▸ okAgents_sublist stops
        unfold TracingController.stopOwn at h
        simp only [stopped_of_sublist hsub] at h
        split at h
        · cases h
        · cases h
        · rename_i hok
          unfold TracingController.collect at h
          split at h
          · cases h
          · rename_i results log hloop
            obtain ⟨-, rfl⟩ := Prod.mk.inj h
            obtain ⟨entries, rfl, hresults, rfl⟩ := Tracing.askAll_some hloop
            refine ⟨syncs, stops, entries, ?_, hsyncs, hstops, hresults, rfl⟩
            have hlast : T.ask .stop (s.log ++ syncs ++ stops) T.controllerAgent =
                ⟨T.controllerAgent, .stop, .ok⟩ := by
              rw [← hok]
              rfl
            simp only [hlast]

/-- Two agents: the first does not stop, the second has no use for markers. -/
def stubbornTracing : Tracing String where
  controllerAgent := "systraceController"
  childAgents := ["atrace", "ftrace"]
  supportsExplicitClockSync := fun a => decide (a = "atrace")
  answer := fun _ a request => if a = "atrace" ∧ request = .stop then .failed else .ok
  nodup := by decide

/-- Its controller after a start. -/
def stubbornStarted : TracingController String :=
  (TracingController.startTracing stubbornTracing {}).2

end Udroid.Systrace
