import StepPipeline.Subscribers

/-!
# Dispatching a measurement

`step_pm_process` as a state machine that other threads interleave with.  The
work-queue thread walks the registry list with a prefetched successor; around
the callbacks of a matched chain it has released `step_pm_reg_access`, and there
every call of the registry interface may come in between any two of its steps.

* `Proc` and `Pc` — the local variables and the program counter of a
  `step_pm_process` in flight;
* `lookupVerdict` — cache check, evaluation and cache insertion for one record;
* `procStep` — one step of the work-queue thread;
* `sysStep` — one step of the whole system: the work-queue thread, or a call by
  another thread, which has to get the mutex first.

Everything a step cannot know — what surrounds a callback, the clocks — is part
of its label, so `LabelledRun.run (sysStep P)` ranges over all interleavings and
all behaviours of the callbacks.

## What one step is

A step ends where another thread, or the surroundings, may first be seen to have had a say: at a
lock, at an unlock, at a callback, and at every read of a list that others may change.  Between
two such points the thread works on its local variables and on data it has locked, and nothing
else can tell how fast it did so.  The loop body up to the branch on `match` is the longest of
these steps: cache check, evaluation and cache insertion happen under the mutex, so `visitStep`
does all of them at once.  Two accesses escape the mutex, the enabled flag that
`step_pm_enable_node` and `step_pm_disable_node` write without it, and the record behind `pnode`,
which `step_pm_clear` may wipe while a chain is being executed; the first is read once in a step,
the second is read anew from the statics in every step that uses it.

## What the log says

`log` is a history variable: no step reads it.  It records the callbacks with the arguments they
were given and the decisions of the loop, and it is what the theorems of the following modules are
about; a theorem about the log is a theorem about what an observer of the callbacks sees.
`Event.free` is such an entry: it says that `step_sp_free` was called with the measurement.  The
pool itself, and with it the mutex that `step_sp_free` waits for, is not part of `Sys`.
`ResourceDiscipline` and `Pipeline` put the two together, and whatever depends on how long the
call takes is stated there.

## What callbacks cannot do

A handler is a function of its arguments and of its surroundings, and its effect is the
measurement it leaves.  A handler that calls the registry interface itself is outside of the
model: `.other` is another thread, and the work-queue thread is excluded there.  Around the
handlers of a chain the mutex is free, and such a call would do what one of another thread does;
around those of an evaluation it would pass the recursive mutex where another thread waits, and
that is not covered.
-/

namespace StepPipeline

open IntrusiveList LabelledRun

variable {Ω : Type}

/-! ### One record -/

/-- What the code reads from its surroundings in one step.  A step calls two callbacks at most
(`evaluate_handler` and `matched_handler`), so two surroundings are enough, and it reads each
clock at most once. -/
structure Inputs (Ω : Type) where
  /-- The surroundings of the first callback of the step. -/
  world : Ω
  /-- The surroundings of the second one. -/
  world' : Ω
  /-- `k_uptime_get`. -/
  uptime : ℤ
  /-- `k_cycle_get_32`. -/
  cycles : BitVec 32

/-- The result of evaluating a record: the variables `match` and `rc`, the measurement as the
handlers leave it, and the handlers that were called.  `value` is an integer, not a truth value: a
filter chain yields the accumulator of its loop, and the code branches on whether it is zero. -/
structure Verdict where
  value : ℤ
  rc : ℤ
  mes : StepMeasurement
  events : List Event

/-- The evaluation proper: the `evaluate_handler` or else the filter chain.  Only the chain
assigns to `rc`; with an `evaluate_handler` the code of the node before stays in it. -/
def evaluateFilter (n : StepNode Ω) (mes : StepMeasurement) (mesAddr handle : ℕ)
    (rc : ℤ) (world : Ω) : Except UndefinedBehaviour Verdict :=
  match n.callbacks.evaluateHandler with
  | some f =>
      let r := f.code world mes handle 0
      .ok ⟨boolToInt r.1, rc, r.2, [.evaluate f.addr mesAddr handle 0 r.1]⟩
  | none =>
      (stepFiltEvaluate (some n.filters) (some mes)).map fun r => ⟨r.2, r.1, mes, []⟩

/-- The `matched_handler`, fired on a match, which it may negate.  It is fired whether the match
comes from the `evaluate_handler` or from the filter chain, and its answer replaces `match` either
way. -/
def applyMatched (n : StepNode Ω) (mesAddr handle : ℕ) (world : Ω) (v : Verdict) : Verdict :=
  match n.callbacks.matchedHandler with
  | none => v
  | some g =>
      if v.value = 0 then v
      else
        let r := g.code world v.mes handle 0
        ⟨boolToInt r.1, v.rc, r.2, v.events ++ [.matched g.addr mesAddr handle 0 r.1]⟩

/-- A fresh evaluation of a node. -/
def evaluateNode (n : StepNode Ω) (mes : StepMeasurement) (mesAddr handle : ℕ) (rc : ℤ)
    (inp : Inputs Ω) : Except UndefinedBehaviour Verdict :=
  (evaluateFilter n mes mesAddr handle rc inp.world).map
    (applyMatched n mesAddr handle inp.world')

/-- A fresh evaluation of the node a record points to. -/
def evaluateRecord (r : StepPmNodeRecord Ω) (mes : StepMeasurement) (mesAddr : ℕ)
    (rc : ℤ) (inp : Inputs Ω) : Except UndefinedBehaviour Verdict :=
  match r.node with
  | none => .error .nullDeref
  | some chain => evaluateNode chain.head mes mesAddr r.handle rc inp

/-- The match verdict of an enabled record: from the cache if it has one, else by a fresh
evaluation, which is then added to the cache.  The check is made with the filter word before the
evaluation and the insertion with the one after it, which a handler may have changed.  A hit reads
the clock and so does an insertion; as one excludes the other, one reading is enough. -/
def lookupVerdict (P : Platform) (cache : StepCache) (r : StepPmNodeRecord Ω)
    (mes : StepMeasurement) (mesAddr : ℕ) (rc : ℤ) (inp : Inputs Ω) :
    Except UndefinedBehaviour (Verdict × StepCache) :=
  if P.filterCache then
    let (cached, result, cache) :=
      stepCacheCheck cache mes.header.filterBits r.handle inp.uptime
    if cached then .ok (⟨result, rc, mes, []⟩, cache)
    else
      match evaluateRecord r mes mesAddr rc inp with
      | .error u => .error u
      | .ok v =>
          (stepCacheAdd cache v.mes.header.filterBits r.handle v.value inp.uptime v.mes).map
            fun cache => (v, cache)
  else (evaluateRecord r mes mesAddr rc inp).map fun v => (v, cache)

theorem exists_of_map_eq_ok {ε α β : Type*} {f : α → β} {x : Except ε α} {b : β}
    (h : x.map f = .ok b) : ∃ a, x = .ok a ∧ f a = b := by
  cases x with
  | error e => cases h
  | ok a => exact ⟨a, rfl, Except.ok.inj h⟩

section Verdict

variable {P : Platform} {n : StepNode Ω} {r : StepPmNodeRecord Ω} {mes : StepMeasurement}
  {mesAddr handle : ℕ} {rc : ℤ} {inp : Inputs Ω} {v : Verdict} {cache cache' : StepCache}

theorem evaluateNode_events (h : evaluateNode n mes mesAddr handle rc inp = .ok v) :
    ∀ e ∈ v.events, e.isEvaluation := by
  have hfilter : ∀ u, evaluateFilter n mes mesAddr handle rc inp.world = .ok u →
      ∀ e ∈ u.events, e.isEvaluation := by
    intro u hu e he
    unfold evaluateFilter at hu
    split at hu
    · obtain rfl := Except.ok.inj hu
      rw [List.mem_singleton.mp he, Event.isEvaluation]
    · obtain ⟨m, -, rfl⟩ := exists_of_map_eq_ok hu
      cases he
  obtain ⟨u, hu, rfl⟩ := exists_of_map_eq_ok h
  intro e he
  unfold applyMatched at he
  split at he
  · exact hfilter u hu e he
  · split at he
    · exact hfilter u hu e he
    · rcases List.mem_append.mp he with he | he
      · exact hfilter u hu e he
      · rw [List.mem_singleton.mp he, Event.isEvaluation]

theorem evaluateRecord_eq_ok (h : evaluateRecord r mes mesAddr rc inp = .ok v) :
    ∃ chain, r.node = some chain ∧
      evaluateNode chain.head mes mesAddr r.handle rc inp = .ok v := by
  unfold evaluateRecord at h
  cases hnode : r.node with
  | none => simp [hnode] at h
  | some chain => exact ⟨chain, rfl, by simpa [hnode] using h⟩

/-- **How a verdict can come about**: from the cache, by an evaluation that is then added to the
cache, or by an evaluation without a cache.  Proofs about a visit go through these three cases and
never unfold `lookupVerdict`. -/
inductive LookupMove (P : Platform) (cache : StepCache) (r : StepPmNodeRecord Ω)
    (mes : StepMeasurement) (mesAddr : ℕ) (rc : ℤ) (inp : Inputs Ω) :
    Verdict → StepCache → Prop
  | hit (hon : P.filterCache = true) (found : StepCacheRec)
      (hfound : cache.lookup mes.header.filterBits r.handle = some found) :
      LookupMove P cache r mes mesAddr rc inp ⟨found.result, rc, mes, []⟩
        (stepCacheCheck cache mes.header.filterBits r.handle inp.uptime).2.2
  | miss (hon : P.filterCache = true)
      (hmiss : cache.lookup mes.header.filterBits r.handle = none)
      (v : Verdict) (hv : evaluateRecord r mes mesAddr rc inp = .ok v) (cache' : StepCache)
      (hadd : stepCacheAdd
        (stepCacheCheck cache mes.header.filterBits r.handle inp.uptime).2.2
        v.mes.header.filterBits r.handle v.value inp.uptime v.mes = .ok cache') :
      LookupMove P cache r mes mesAddr rc inp v cache'
  | fresh (hoff : P.filterCache = false) (v : Verdict)
      (hv : evaluateRecord r mes mesAddr rc inp = .ok v) :
      LookupMove P cache r mes mesAddr rc inp v cache

/-- A verdict from the cache. -/
theorem lookupVerdict_hit (hon : P.filterCache = true) {found : StepCacheRec}
    (hfound : cache.lookup mes.header.filterBits r.handle = some found) :
    lookupVerdict P cache r mes mesAddr rc inp =
      .ok (⟨found.result, rc, mes, []⟩,
        (stepCacheCheck cache mes.header.filterBits r.handle inp.uptime).2.2) := by
  obtain ⟨h1, h2, -⟩ := @stepCacheCheck_hit cache mes.header.filterBits r.handle inp.uptime
    found hfound
  simp [lookupVerdict, hon, h1, h2]

/-- A verdict the cache does not have is evaluated and added. -/
theorem lookupVerdict_miss (hon : P.filterCache = true)
    (hmiss : cache.lookup mes.header.filterBits r.handle = none) :
    lookupVerdict P cache r mes mesAddr rc inp =
      match evaluateRecord r mes mesAddr rc inp with
      | .error u => .error u
      | .ok v =>
          (stepCacheAdd (stepCacheCheck cache mes.header.filterBits r.handle inp.uptime).2.2
            v.mes.header.filterBits r.handle v.value inp.uptime v.mes).map fun c => (v, c) := by
  have h1 := (@stepCacheCheck_miss cache mes.header.filterBits r.handle inp.uptime hmiss).1
  simp [lookupVerdict, hon, h1]

theorem lookupVerdict_off (hoff : P.filterCache = false) :
    lookupVerdict P cache r mes mesAddr rc inp =
      (evaluateRecord r mes mesAddr rc inp).map fun v => (v, cache) := by
  simp [lookupVerdict, hoff]

theorem lookupVerdict_move
    (h : lookupVerdict P cache r mes mesAddr rc inp = .ok (v, cache')) :
    LookupMove P cache r mes mesAddr rc inp v cache' := by
  cases hon : P.filterCache with
  | false =>
      rw [lookupVerdict_off hon] at h
      obtain ⟨w, hw, heq⟩ := exists_of_map_eq_ok h
      cases heq
      exact .fresh hon _ hw
  | true =>
      cases hfind : cache.lookup mes.header.filterBits r.handle with
      | some found =>
          rw [lookupVerdict_hit hon hfind] at h
          cases h
          exact .hit hon found hfind
      | none =>
          rw [lookupVerdict_miss hon hfind] at h
          cases hw : evaluateRecord r mes mesAddr rc inp with
          | error u => simp [hw] at h
          | ok w =>
              rw [hw] at h
              obtain ⟨c, hc, heq⟩ := exists_of_map_eq_ok h
              cases heq
              exact .miss hon hfind _ hw _ hc

/-- The events of a lookup are calls of the handlers of an evaluation. -/
theorem lookupVerdict_events
    (h : lookupVerdict P cache r mes mesAddr rc inp = .ok (v, cache')) :
    ∀ e ∈ v.events, e.isEvaluation := by
  have heval : ∀ w, evaluateRecord r mes mesAddr rc inp = .ok w →
      ∀ e ∈ w.events, e.isEvaluation := by
    intro w hw
    obtain ⟨chain, -, hnode⟩ := evaluateRecord_eq_ok hw
    exact evaluateNode_events hnode
  cases lookupVerdict_move h with
  | hit _ _ _ => exact fun e he => by cases he
  | miss _ _ _ hv _ _ => exact heval v hv
  | fresh _ _ hv => exact heval v hv

theorem lookupVerdict_decisions
    (h : lookupVerdict P cache r mes mesAddr rc inp = .ok (v, cache')) :
    v.events.filter Event.isDecision = [] := by
  rw [List.filter_eq_nil_iff]
  intro e he
  have heval := lookupVerdict_events h e he
  cases e <;> simp_all [Event.isEvaluation, Event.isDecision]

end Verdict

/-- `STEP_INSTR_STOP`: the cycles since `t`, converted to nanoseconds.  When the counter has
wrapped, the macro takes `0xFFFFFFFF - t + stop`, which is one cycle short of the difference
modulo `2^32`; `CycleReadings` follows that up. -/
def stepInstrStop (P : Platform) (t stop : BitVec 32) : BitVec 32 :=
  P.cycToNs (if stop < t then 0xFFFFFFFF#32 - t + stop else stop - t)

/-! ### The thread in flight -/

/-- Where a `step_pm_process` in flight stands.  There is one constructor for each point at which
another thread can come in; those between `call` and `subsNext` carry what the C code keeps in the
loop variables of the inner loops. -/
inductive Pc (Ω : Type) where
  /-- Before the registry is locked. -/
  | lock
  /-- Locked, before the list is looked at. -/
  | head
  /-- Locked, about to run the loop body on `pnode`. -/
  | visit
  /-- Unlocked, about to call a handler of node `n`, instance `inst`; `next` are
  the nodes after it. -/
  | call (phase : Phase) (inst : ℕ) (n : StepNode Ω) (next : List (StepNode Ω))
  /-- Unlocked, about to call the error handler for the handler that returned
  `code`. -/
  | error (phase : Phase) (inst : ℕ) (n : StepNode Ω) (next : List (StepNode Ω)) (code : ℤ)
  /-- Unlocked, about to look at the list of subscribers. -/
  | subsHead
  /-- Unlocked, about to call the subscriber in block `entry`. -/
  | subs (entry : ℕ) (subsTmp : Option ℕ)
  /-- Unlocked, behind the call, about to go on to `subsTmp`. -/
  | subsNext (subsTmp : Option ℕ)
  /-- Unlocked, about to lock the registry again. -/
  | relock
  /-- Locked, behind the loop. -/
  | tail

/-- The local variables of `step_pm_process`.  `under` and `fetched` are history variables: the
registration the chain being executed was matched under, and how often the registry had been
cleared when its first subscriber was fetched.  No step reads them; they are there because the
code itself forgets under which registration it set out, and the theorems about identity have to
compare with it. -/
structure Proc (Ω : Type) where
  mesAddr : ℕ
  mes : StepMeasurement
  free : Bool
  rc : ℤ
  matchCount : ℕ
  pnode : ℕ
  tmp : Option ℕ
  instr : BitVec 32
  under : Registration
  fetched : ℕ
  pc : Pc Ω

/-- A call of `step_pm_process`. -/
def Proc.start (mesAddr : ℕ) (mes : StepMeasurement) (free : Bool) : Proc Ω :=
  ⟨mesAddr, mes, free, 0, 0, 0, none, 0#32, ⟨0, 0⟩, 0, .lock⟩

/-- The loop goes on at `next` and prefetches its successor. -/
def Proc.goOn (p : Proc Ω) (snode : Links ℕ) (next : Option ℕ) : Proc Ω :=
  match next with
  | none => { p with pc := .tail }
  | some q => { p with pnode := q, tmp := snode q, pc := .visit }

/-- Behind a handler that returned 0, and behind an error handler.  That both come to the same
point is what the code does: a handler that failed does not keep the next one from being called. -/
def afterPhase (phase : Phase) (inst : ℕ) (n : StepNode Ω) (next : List (StepNode Ω)) :
    Pc Ω :=
  match phase with
  | .start => .call .exec inst n next
  | .exec => .call .stop inst n next
  | .stop =>
      match next with
      | [] => .subsHead
      | m :: ms => .call .start (inst + 1) m ms

/-- The subscriber loop goes on at `next` and prefetches its successor; at the end
of the list the match is counted. -/
def Proc.goOnSubs (p : Proc Ω) (subSnode : Links ℕ) (next : Option ℕ) : Proc Ω :=
  match next with
  | none => { p with matchCount := p.matchCount + 1, pc := .relock }
  | some e => { p with pc := .subs e (subSnode e) }

/-- The loop over the subscribers is left when there is no next one. -/
def doneEvents (slot : ℕ) (next : Option ℕ) : List Event :=
  if next = none then [.chainDone slot] else []

/-- The whole system: the statics, the registry mutex, the `step_pm_process` in flight, what has
happened so far, and whether defined behaviour was left.  There is one work-queue thread, so at
most one dispatch is in flight. -/
structure Sys (Ω : Type) where
  pm : PmState Ω
  regAccess : KMutex
  proc : Option (Proc Ω)
  log : List Event
  fault : Option UndefinedBehaviour

/-- The system after start-up. -/
def Sys.init (P : Platform) : Sys Ω := ⟨PmState.init P, .free, none, [], none⟩

/-- A step that leaves defined behaviour; nothing is said of the state after it. -/
def Sys.crash (s : Sys Ω) (u : UndefinedBehaviour) : Sys Ω := { s with fault := some u }

/-- The loop body up to the branch on `match`.  The record is read once: the mutex is held, and
the only field another thread may write without it is the enabled flag, which the code reads
exactly once here. -/
def visitStep (P : Platform) (s : Sys Ω) (p : Proc Ω) (inp : Inputs Ω) : Sys Ω :=
  let r := s.pm.nodes p.pnode
  if r.enabled then
    match lookupVerdict P s.pm.cache r p.mes p.mesAddr p.rc inp with
    | .error u => s.crash u
    | .ok (v, cache) =>
        -- the lock is released before the branch on `match`
        let evaluated : Sys Ω :=
          { s with
            pm := { s.pm with cache := cache }
            regAccess := s.regAccess.unlock workQueueTid
            log := s.log ++ (.visit p.pnode true :: v.events ++ [.verdict p.pnode v.value]) }
        let p : Proc Ω := { p with rc := v.rc, mes := v.mes, instr := inp.cycles }
        if v.value = 0 then { evaluated with proc := some { p with pc := .relock } }
        else
          match r.node with
          | none => s.crash .nullDeref
          | some chain =>
              { evaluated with
                log := evaluated.log ++ [.execute p.pnode]
                proc := some
                  { p with
                    under := ⟨r.handle, s.pm.epoch⟩
                    pc := .call .start 0 chain.head chain.rest } }
  else
    { s with
      log := s.log ++ [.visit p.pnode false]
      proc := some (p.goOn s.pm.snode p.tmp) }

/-- The instrumentation of a record whose chain is done.  It writes to the slot `pnode` points to,
whatever that slot holds by now. -/
def PmState.account (P : Platform) (s : PmState Ω) (slot : ℕ) (t stop : BitVec 32) :
    PmState Ω :=
  if P.instrumentation then
    { s with
      nodes := Function.update s.nodes slot
        { s.nodes slot with
          runtimeNs := (s.nodes slot).runtimeNs + stepInstrStop P t stop
          runs := (s.nodes slot).runs + 1 } }
  else s

/-- **One step of the work-queue thread**; `none` while it waits for the mutex.  Apart from the
two program counters that lock, every one has a step in every state: the thread never waits for
anything else here.  At `.tail` the call of `step_sp_free` is the event `.free` and no more;
inside, that function takes the mutex of the sample pool, and a run of the whole pipeline in which
it has to wait there is a run of `Pipeline`, not of this system. -/
def procStep (P : Platform) (s : Sys Ω) (p : Proc Ω) (inp : Inputs Ω) : Option (Sys Ω) :=
  let handle := (s.pm.nodes p.pnode).handle
  match p.pc with
  | .lock =>
      (s.regAccess.lock workQueueTid).map fun m =>
        { s with regAccess := m, proc := some { p with pc := .head } }
  | .head =>
      some { s with proc := some (p.goOn s.pm.snode s.pm.pmNodeSlist.head) }
  | .visit => some (visitStep P s p inp)
  | .call phase inst n next =>
      match n.callbacks.handler phase with
      | none => some { s with proc := some { p with pc := afterPhase phase inst n next } }
      | some f =>
          let r := f.code inp.world p.mes handle inst
          some
            { s with
              log := s.log ++ [.handler phase f.addr p.mesAddr handle inst r.1 p.under]
              proc := some
                { p with
                  mes := r.2
                  pc := if r.1 = 0 then afterPhase phase inst n next
                    else .error phase inst n next r.1 } }
  | .error phase inst n next code =>
      match n.callbacks.errorHandler with
      -- the code calls `error_handler` without a test for NULL
      | none => some (s.crash .nullCall)
      | some e =>
          some
            { s with
              log := s.log ++ [.error phase e.addr p.mesAddr handle inst code p.under]
              proc := some
                { p with
                  mes := (e.code inp.world (some p.mes) handle inst code).getD p.mes
                  pc := afterPhase phase inst n next } }
  | .subsHead =>
      let next := (s.pm.nodes p.pnode).subCallbacks.head
      some
        { s with
          log := s.log ++ doneEvents p.pnode next
          proc := some ({ p with fetched := s.pm.epoch }.goOnSubs s.pm.subSnode next) }
  | .subs entry subsTmp =>
      let sub := s.pm.subs entry
      match sub.cb with
      | none => some { s with proc := some { p with pc := .subsNext subsTmp } }
      | some f =>
          some
            { s with
              log := s.log ++
                [.subscriber entry f.addr p.mesAddr handle sub.userData sub.subscribedTo p.under]
              proc := some
                { p with
                  mes := f.code inp.world p.mes handle sub.userData
                  pc := .subsNext subsTmp } }
  | .subsNext subsTmp =>
      some
        { s with
          log := s.log ++ doneEvents p.pnode subsTmp
          proc := some (p.goOnSubs s.pm.subSnode subsTmp) }
  | .relock =>
      (s.regAccess.lock workQueueTid).map fun m =>
        { s with
          regAccess := m
          pm := s.pm.account P p.pnode p.instr inp.cycles
          proc := some (p.goOn s.pm.snode p.tmp) }
  | .tail =>
      some
        { s with
          log := s.log ++ ((if p.free then [.free p.mesAddr] else []) ++ [.returned p.rc])
          regAccess := s.regAccess.unlock workQueueTid
          proc := none }

/-! ### The system -/

/-- What can happen next. -/
inductive Label (Ω : Type) where
  /-- The work queue hands a measurement to `step_pm_process`. -/
  | process (mesAddr : ℕ) (mes : StepMeasurement) (free : Bool)
  /-- The `step_pm_process` in flight takes a step. -/
  | proc (inp : Inputs Ω)
  /-- Another thread carries out a call. -/
  | other (t : Tid) (c : ApiCall Ω)

/-- Whether a call locks the registry. -/
def ApiCall.locks : ApiCall Ω → Bool
  | .register _ _ _ | .clear | .subscribe _ _ _ _ => true
  | .enable _ | .disable _ => false

/-- A call by another thread has happened. -/
def Sys.afterCall (s : Sys Ω) (o : Outcome Ω) : Sys Ω :=
  { s with pm := o.pm, log := s.log ++ o.events, fault := o.fault }

/-- **One step of the system**; `none` if the label is not enabled.  A call of another thread that
locks the registry waits until it gets the mutex and is then carried out in one piece, as it keeps
the mutex to its end; what the heap answers to it is part of the label and has to be an answer the
heap can give. -/
def sysStep (P : Platform) (s : Sys Ω) (l : Label Ω) : Option (Sys Ω) :=
  if s.fault ≠ none then none
  else
    match l with
    | .process mesAddr mes free =>
        match s.proc with
        | none => some { s with proc := some (Proc.start mesAddr mes free) }
        | some _ => none
    | .proc inp =>
        match s.proc with
        | none => none
        | some p => procStep P s p inp
    | .other t c =>
        if t = workQueueTid ∨ c.locks ∧ s.regAccess.lock t = none ∨ ¬c.heapOk s.pm then none
        else some (s.afterCall (apiCall P s.pm c))

/-! ### What a step can do -/

/-- The program counters inside the execution of a chain. -/
def Pc.InChain : Pc Ω → Prop
  | .call _ _ _ _ | .error _ _ _ _ _ | .subsHead | .subs _ _ | .subsNext _ => True
  | .lock | .head | .visit | .relock | .tail => False

instance (pc : Pc Ω) : Decidable pc.InChain :=
  match pc with
  | .call _ _ _ _ | .error _ _ _ _ _ | .subsHead | .subs _ _ | .subsNext _ => isTrue trivial
  | .lock | .head | .visit | .relock | .tail => isFalse id

/-- The program counters at which the thread holds `step_pm_reg_access`. -/
def Pc.Locked : Pc Ω → Prop
  | .head | .visit | .tail => True
  | _ => False

/-- `p'` is `p` further on in the execution of the same chain.  Of the local variables only the
measurement, the match count and the program counter change between a match and the next lock. -/
structure Proc.SameVisit (p p' : Proc Ω) : Prop where
  mesAddr : p'.mesAddr = p.mesAddr
  free : p'.free = p.free
  rc : p'.rc = p.rc
  pnode : p'.pnode = p.pnode
  tmp : p'.tmp = p.tmp
  instr : p'.instr = p.instr
  under : p'.under = p.under

/-- **What a step inside a chain can do**: pass over a handler that is not set, call one, call the
error handler, miss it, fetch the first subscriber, pass over a subscriber without a function,
call one, or go on to the next.  This is the finer of the two inversion lemmas; results about the
callbacks of a chain are proved from it, results about the loop from `ProcMove`. -/
inductive ChainMove (s : Sys Ω) (p : Proc Ω) (inp : Inputs Ω) : Sys Ω → Prop
  | skip {phase : Phase} {inst : ℕ} {n : StepNode Ω} {next : List (StepNode Ω)}
      (hpc : p.pc = .call phase inst n next) (hnone : n.callbacks.handler phase = none) :
      ChainMove s p inp { s with proc := some { p with pc := afterPhase phase inst n next } }
  | call {phase : Phase} {inst : ℕ} {n : StepNode Ω} {next : List (StepNode Ω)}
      (hpc : p.pc = .call phase inst n next) (f : FnPtr (StepNodeCallback Ω))
      (hsome : n.callbacks.handler phase = some f) (rc : ℤ) (mes : StepMeasurement)
      (hcode : f.code inp.world p.mes (s.pm.nodes p.pnode).handle inst = (rc, mes)) :
      ChainMove s p inp
        { s with
          log := s.log ++
            [.handler phase f.addr p.mesAddr (s.pm.nodes p.pnode).handle inst rc p.under]
          proc := some
            { p with
              mes := mes
              pc := if rc = 0 then afterPhase phase inst n next
                else .error phase inst n next rc } }
  | error {phase : Phase} {inst : ℕ} {n : StepNode Ω} {next : List (StepNode Ω)} {code : ℤ}
      (hpc : p.pc = .error phase inst n next code) (e : FnPtr (StepNodeError Ω))
      (hsome : n.callbacks.errorHandler = some e) (mes : StepMeasurement) :
      ChainMove s p inp
        { s with
          log := s.log ++
            [.error phase e.addr p.mesAddr (s.pm.nodes p.pnode).handle inst code p.under]
          proc := some { p with mes := mes, pc := afterPhase phase inst n next } }
  | nullError {phase : Phase} {inst : ℕ} {n : StepNode Ω} {next : List (StepNode Ω)}
      {code : ℤ} (hpc : p.pc = .error phase inst n next code)
      (hnone : n.callbacks.errorHandler = none) :
      ChainMove s p inp (s.crash .nullCall)
  | fetch (hpc : p.pc = .subsHead) :
      ChainMove s p inp
        { s with
          log := s.log ++ doneEvents p.pnode (s.pm.nodes p.pnode).subCallbacks.head
          proc := some
            ({ p with fetched := s.pm.epoch }.goOnSubs s.pm.subSnode
              (s.pm.nodes p.pnode).subCallbacks.head) }
  | skipSub {entry : ℕ} {subsTmp : Option ℕ} (hpc : p.pc = .subs entry subsTmp)
      (hnone : (s.pm.subs entry).cb = none) :
      ChainMove s p inp { s with proc := some { p with pc := .subsNext subsTmp } }
  | callSub {entry : ℕ} {subsTmp : Option ℕ} (hpc : p.pc = .subs entry subsTmp)
      (f : FnPtr (NodeChainCompletedCallback Ω)) (hsome : (s.pm.subs entry).cb = some f)
      (mes : StepMeasurement) :
      ChainMove s p inp
        { s with
          log := s.log ++
            [.subscriber entry f.addr p.mesAddr (s.pm.nodes p.pnode).handle
              (s.pm.subs entry).userData (s.pm.subs entry).subscribedTo p.under]
          proc := some { p with mes := mes, pc := .subsNext subsTmp } }
  | nextSub {subsTmp : Option ℕ} (hpc : p.pc = .subsNext subsTmp) :
      ChainMove s p inp
        { s with
          log := s.log ++ doneEvents p.pnode subsTmp
          proc := some (p.goOnSubs s.pm.subSnode subsTmp) }

/-- **What a step of the work-queue thread can do**, the execution of a chain taken as a whole.
Every invariant of the dispatch loop is proved by going through these constructors, each of which
says in full what the state becomes. -/
inductive ProcMove (P : Platform) (s : Sys Ω) (p : Proc Ω) (inp : Inputs Ω) : Sys Ω → Prop
  | crash (u : UndefinedBehaviour) : ProcMove P s p inp (s.crash u)
  | lock (hpc : p.pc = .lock) (m : KMutex) (hm : s.regAccess.lock workQueueTid = some m) :
      ProcMove P s p inp
        { s with regAccess := m, proc := some { p with pc := .head } }
  | head (hpc : p.pc = .head) :
      ProcMove P s p inp
        { s with proc := some (p.goOn s.pm.snode s.pm.pmNodeSlist.head) }
  | skip (hpc : p.pc = .visit) (hoff : (s.pm.nodes p.pnode).enabled = false) :
      ProcMove P s p inp
        { s with
          log := s.log ++ [.visit p.pnode false]
          proc := some (p.goOn s.pm.snode p.tmp) }
  | noMatch (hpc : p.pc = .visit) (hon : (s.pm.nodes p.pnode).enabled = true)
      (v : Verdict) (cache : StepCache)
      (hv : lookupVerdict P s.pm.cache (s.pm.nodes p.pnode) p.mes p.mesAddr p.rc inp =
        .ok (v, cache))
      (hzero : v.value = 0) :
      ProcMove P s p inp
        { s with
          pm := { s.pm with cache := cache }
          regAccess := s.regAccess.unlock workQueueTid
          log := s.log ++ (.visit p.pnode true :: v.events ++ [.verdict p.pnode v.value])
          proc := some
            { p with rc := v.rc, mes := v.mes, instr := inp.cycles, pc := .relock } }
  | enter (hpc : p.pc = .visit) (hon : (s.pm.nodes p.pnode).enabled = true)
      (v : Verdict) (cache : StepCache) (chain : StepNodeChain Ω)
      (hv : lookupVerdict P s.pm.cache (s.pm.nodes p.pnode) p.mes p.mesAddr p.rc inp =
        .ok (v, cache))
      (hnonzero : v.value ≠ 0) (hchain : (s.pm.nodes p.pnode).node = some chain) :
      ProcMove P s p inp
        { s with
          pm := { s.pm with cache := cache }
          regAccess := s.regAccess.unlock workQueueTid
          log := s.log ++ (.visit p.pnode true :: v.events ++ [.verdict p.pnode v.value]) ++
            [.execute p.pnode]
          proc := some
            { p with
              rc := v.rc
              mes := v.mes
              instr := inp.cycles
              under := ⟨(s.pm.nodes p.pnode).handle, s.pm.epoch⟩
              pc := .call .start 0 chain.head chain.rest } }
  | chain (hpc : p.pc.InChain) (p' : Proc Ω) (hsame : p.SameVisit p') (hpc' : p'.pc.InChain)
      (events : List Event) (hevents : events.filter Event.isDecision = []) :
      ProcMove P s p inp { s with log := s.log ++ events, proc := some p' }
  | chainDone (hpc : p.pc.InChain) (p' : Proc Ω) (hsame : p.SameVisit p')
      (hpc' : p'.pc = .relock) :
      ProcMove P s p inp
        { s with log := s.log ++ [.chainDone p.pnode], proc := some p' }
  | relock (hpc : p.pc = .relock) (m : KMutex) (hm : s.regAccess.lock workQueueTid = some m) :
      ProcMove P s p inp
        { s with
          regAccess := m
          pm := s.pm.account P p.pnode p.instr inp.cycles
          proc := some (p.goOn s.pm.snode p.tmp) }
  | tail (hpc : p.pc = .tail) :
      ProcMove P s p inp
        { s with
          log := s.log ++ ((if p.free then [.free p.mesAddr] else []) ++ [.returned p.rc])
          regAccess := s.regAccess.unlock workQueueTid
          proc := none }

section Cases

variable {P : Platform} {s s' : Sys Ω} {p : Proc Ω} {inp : Inputs Ω}

theorem afterPhase_inChain (phase : Phase) (inst : ℕ) (n : StepNode Ω)
    (next : List (StepNode Ω)) : (afterPhase phase inst n next).InChain := by
  cases phase with
  | start => trivial
  | exec => trivial
  | stop => cases next <;> trivial

theorem Proc.goOnSubs_sameVisit (p : Proc Ω) (fetched : ℕ) (subSnode : Links ℕ)
    (next : Option ℕ) :
    p.SameVisit ({ p with fetched := fetched }.goOnSubs subSnode next) := by
  cases next <;> exact ⟨rfl, rfl, rfl, rfl, rfl, rfl, rfl⟩

/-- Going on in the subscriber list stays inside the chain or ends it. -/
theorem goOnSubs_move (hpc : p.pc.InChain) (fetched : ℕ) (next : Option ℕ) :
    ProcMove P s p inp
      { s with
        log := s.log ++ doneEvents p.pnode next
        proc := some ({ p with fetched := fetched }.goOnSubs s.pm.subSnode next) } := by
  have hsame := p.goOnSubs_sameVisit fetched s.pm.subSnode next
  cases next with
  | none => exact .chainDone hpc _ hsame rfl
  | some e => exact .chain hpc _ hsame trivial _ rfl

/-- A step inside a chain that logs no decision of the loop stays inside it. -/
theorem chain_move (hin : p.pc.InChain) (events : List Event)
    (hevents : events.filter Event.isDecision = []) {pc : Pc Ω} (hpc : pc.InChain)
    (mes : StepMeasurement) :
    ProcMove P s p inp
      { s with
        log := s.log ++ events
        proc := some { p with mes := mes, pc := pc } } :=
  .chain hin { p with mes := mes, pc := pc } ⟨rfl, rfl, rfl, rfl, rfl, rfl, rfl⟩ hpc events
    hevents

theorem procStep_chainMove (hin : p.pc.InChain) (h : procStep P s p inp = some s') :
    ChainMove s p inp s' := by
  unfold procStep at h
  cases hpc : p.pc with
  | lock | head | visit | relock | tail => simp [hpc, Pc.InChain] at hin
  | call phase inst n next =>
      simp only [hpc] at h
      split at h
      · rename_i hnone
        exact Option.some.inj h ▸ .skip hpc hnone
      · rename_i f hsome
        exact Option.some.inj h ▸ .call hpc f hsome _ _ rfl
  | error phase inst n next code =>
      simp only [hpc] at h
      split at h
      · rename_i hnone
        exact Option.some.inj h ▸ .nullError hpc hnone
      · rename_i e hsome
        exact Option.some.inj h ▸ .error hpc e hsome _
  | subsHead =>
      simp only [hpc, Option.some_inj] at h
      exact h ▸ .fetch hpc
  | subs entry subsTmp =>
      simp only [hpc] at h
      split at h
      · rename_i hnone
        exact Option.some.inj h ▸ .skipSub hpc hnone
      · rename_i f hsome
        exact Option.some.inj h ▸ .callSub hpc f hsome _
  | subsNext subsTmp =>
      simp only [hpc, Option.some_inj] at h
      exact h ▸ .nextSub hpc

/-- The execution of a chain, seen from the loop around it. -/
theorem ChainMove.procMove (hin : p.pc.InChain) (hmove : ChainMove s p inp s') :
    ProcMove P s p inp s' := by
  cases hmove with
  | nullError _ _ => exact .crash _
  | @skip phase inst n next _ _ =>
      have h : ProcMove P s p inp _ :=
        chain_move hin [] rfl (afterPhase_inChain phase inst n next) p.mes
      simpa using h
  | @call phase inst n next _ f _ rc mes _ =>
      refine chain_move hin _ rfl ?_ mes
      split
      · exact afterPhase_inChain _ _ _ _
      · trivial
  | error _ e _ mes => exact chain_move hin _ rfl (afterPhase_inChain _ _ _ _) mes
  | fetch _ => exact goOnSubs_move hin _ _
  | @skipSub _ subsTmp _ _ =>
      have hnext : (Pc.subsNext subsTmp : Pc Ω).InChain := trivial
      have h : ProcMove P s p inp _ := chain_move hin [] rfl hnext p.mes
      simpa using h
  | @callSub _ subsTmp _ f _ mes =>
      have hnext : (Pc.subsNext subsTmp : Pc Ω).InChain := trivial
      exact chain_move hin _ rfl hnext mes
  | nextSub _ => exact goOnSubs_move hin _ _

theorem visitStep_move (hpc : p.pc = .visit) :
    ProcMove P s p inp (visitStep P s p inp) := by
  unfold visitStep
  cases hon : (s.pm.nodes p.pnode).enabled with
  | false =>
      simp only [hon, Bool.false_eq_true, if_false]
      exact .skip hpc hon
  | true =>
      simp only [hon, if_true]
      cases hv : lookupVerdict P s.pm.cache (s.pm.nodes p.pnode) p.mes p.mesAddr p.rc inp with
      | error u => exact .crash u
      | ok r =>
          obtain ⟨v, cache⟩ := r
          dsimp only
          by_cases hzero : v.value = 0
          · rw [if_pos hzero]
            exact .noMatch hpc hon v cache hv hzero
          · rw [if_neg hzero]
            cases hchain : (s.pm.nodes p.pnode).node with
            | none => exact .crash _
            | some chain => exact .enter hpc hon v cache chain hv hzero hchain

theorem procStep_move (h : procStep P s p inp = some s') : ProcMove P s p inp s' := by
  by_cases hin : p.pc.InChain
  · exact (procStep_chainMove hin h).procMove hin
  · unfold procStep at h
    cases hpc : p.pc with
    | lock =>
        simp only [hpc, Option.map_eq_some_iff] at h
        obtain ⟨m, hm, rfl⟩ := h
        exact .lock hpc m hm
    | head =>
        simp only [hpc, Option.some_inj] at h
        exact h ▸ .head hpc
    | visit =>
        simp only [hpc, Option.some_inj] at h
        exact h ▸ visitStep_move hpc
    | relock =>
        simp only [hpc, Option.map_eq_some_iff] at h
        obtain ⟨m, hm, rfl⟩ := h
        exact .relock hpc m hm
    | tail =>
        simp only [hpc, Option.some_inj] at h
        exact h ▸ .tail hpc
    | _ => exact absurd (hpc ▸ trivial) hin

end Cases

/-- **What a step of the system can do.** -/
inductive SysMove (P : Platform) (s : Sys Ω) : Label Ω → Sys Ω → Prop
  | process (mesAddr : ℕ) (mes : StepMeasurement) (free : Bool) (hproc : s.proc = none) :
      SysMove P s (.process mesAddr mes free)
        { s with proc := some (Proc.start mesAddr mes free) }
  | proc {inp : Inputs Ω} {p : Proc Ω} {s' : Sys Ω} (hproc : s.proc = some p)
      (hmove : ProcMove P s p inp s') : SysMove P s (.proc inp) s'
  | other (t : Tid) (c : ApiCall Ω) (ht : t ≠ workQueueTid)
      (hlock : c.locks → s.regAccess.lock t ≠ none) (hheap : c.heapOk s.pm = true) :
      SysMove P s (.other t c) (s.afterCall (apiCall P s.pm c))

theorem sysStep_move {P : Platform} {s s' : Sys Ω} {l : Label Ω}
    (h : sysStep P s l = some s') : s.fault = none ∧ SysMove P s l s' := by
  unfold sysStep at h
  split at h
  · cases h
  · rename_i hfault
    refine ⟨not_not.mp hfault, ?_⟩
    cases l with
    | process mesAddr mes free =>
        cases hproc : s.proc with
        | none =>
            simp only [hproc, Option.some_inj] at h
            exact h ▸ .process mesAddr mes free hproc
        | some p => simp [hproc] at h
    | proc inp =>
        cases hproc : s.proc with
        | none => simp [hproc] at h
        | some p =>
            simp only [hproc] at h
            exact .proc hproc (procStep_move h)
    | other t c =>
        simp only at h
        split at h
        · cases h
        · rename_i hguard
          push Not at hguard
          obtain ⟨ht, hlock, hheap⟩ := hguard
          exact Option.some.inj h ▸ .other t c ht hlock (by simpa using hheap)

theorem procStep_of_sysStep {P : Platform} {s s' : Sys Ω} {p : Proc Ω} {inp : Inputs Ω}
    (h : sysStep P s (.proc inp) = some s') (hproc : s.proc = some p) :
    procStep P s p inp = some s' := by
  obtain ⟨hfault, -⟩ := sysStep_move h
  simpa [sysStep, hfault, hproc] using h

/-- At the loop body the thread executes it. -/
theorem procStep_visit {P : Platform} {s : Sys Ω} {p : Proc Ω} {inp : Inputs Ω}
    (hpc : p.pc = .visit) : procStep P s p inp = some (visitStep P s p inp) := by
  simp only [procStep, hpc]

/-- A dispatch goes on with its measurement, up to its end. -/
theorem proc_of_procStep {P : Platform} {s s' : Sys Ω} {p : Proc Ω} {inp : Inputs Ω}
    (hproc : s.proc = some p) (hpc : p.pc ≠ .tail)
    (hstep : procStep P s p inp = some s') :
    ∃ p', s'.proc = some p' ∧ p'.mesAddr = p.mesAddr ∧ p'.free = p.free := by
  have hgoOn : ∀ snode next, (p.goOn snode next).mesAddr = p.mesAddr ∧
      (p.goOn snode next).free = p.free := by
    intro snode next
    cases next <;> exact ⟨rfl, rfl⟩
  cases procStep_move hstep with
  | crash _ => exact ⟨p, hproc, rfl, rfl⟩
  | chain _ p' hsame _ _ _ | chainDone _ p' hsame _ => exact ⟨p', rfl, hsame.mesAddr, hsame.free⟩
  | tail h => exact absurd h hpc
  | head _ | skip _ _ | relock _ _ _ => exact ⟨_, rfl, hgoOn _ _⟩
  | lock _ _ _ | noMatch _ _ _ _ _ _ | enter _ _ _ _ _ _ _ _ => exact ⟨_, rfl, rfl, rfl⟩

/-- The last step of a dispatch frees its measurement, if it is to, and returns. -/
theorem procStep_tail {P : Platform} {s s' : Sys Ω} {p : Proc Ω} {inp : Inputs Ω}
    (hpc : p.pc = .tail) (hstep : procStep P s p inp = some s') :
    s'.proc = none ∧
      s'.log = s.log ++ ((if p.free then [.free p.mesAddr] else []) ++ [.returned p.rc]) := by
  simp only [procStep, hpc, Option.some_inj] at hstep
  subst hstep
  exact ⟨rfl, rfl⟩

/-- The log only grows. -/
theorem sysStep_log {P : Platform} {s s' : Sys Ω} {l : Label Ω}
    (h : sysStep P s l = some s') : s.log <+: s'.log := by
  obtain ⟨-, hmove⟩ := sysStep_move h
  cases hmove with
  | process _ _ _ _ => exact List.prefix_rfl
  | other _ _ _ _ _ => exact List.prefix_append _ _
  | proc _ hmove =>
      cases hmove with
      | crash _ | lock _ _ _ | head _ | relock _ _ _ => exact List.prefix_rfl
      | enter _ _ _ _ _ _ _ _ => exact (List.append_assoc _ _ _).symm ▸ List.prefix_append _ _
      | _ => exact List.prefix_append _ _

theorem run_log {P : Platform} {s s' : Sys Ω} {ls : List (Label Ω)}
    (h : run (sysStep P) s ls = some s') : s.log <+: s'.log := by
  induction ls generalizing s with
  | nil =>
      obtain rfl : s = s' := Option.some.inj h
      exact List.prefix_rfl
  | cons l ls ih =>
      obtain ⟨s₁, hstep, hrun⟩ := (run_cons_eq_some _).mp h
      exact (sysStep_log hstep).trans (ih hrun)

/-- A system that has left defined behaviour takes no step. -/
theorem run_of_fault {P : Platform} {s s' : Sys Ω} {ls : List (Label Ω)}
    (hfault : s.fault ≠ none) (h : run (sysStep P) s ls = some s') : s' = s := by
  cases ls with
  | nil => exact (Option.some.inj h).symm
  | cons l ls =>
      obtain ⟨s₁, hstep, -⟩ := (run_cons_eq_some _).mp h
      exact absurd (sysStep_move hstep).1 hfault

/-! ### The lock discipline and the registry -/

/-- `s'` has the registry of `s`; the cache and the instrumentation may differ. -/
structure PmState.SameRegistry (s s' : PmState Ω) : Prop where
  handleCounter : s'.handleCounter = s.handleCounter
  pmNodeSlist : s'.pmNodeSlist = s.pmNodeSlist
  snode : s'.snode = s.snode
  subs : s'.subs = s.subs
  subSnode : s'.subSnode = s.subSnode
  subAllocated : s'.subAllocated = s.subAllocated
  epoch : s'.epoch = s.epoch
  handle : ∀ i, (s'.nodes i).handle = (s.nodes i).handle
  node : ∀ i, (s'.nodes i).node = (s.nodes i).node
  priority : ∀ i, (s'.nodes i).priority = (s.nodes i).priority
  enabled : ∀ i, (s'.nodes i).enabled = (s.nodes i).enabled
  subCallbacks : ∀ i, (s'.nodes i).subCallbacks = (s.nodes i).subCallbacks

theorem PmState.SameRegistry.refl (s : PmState Ω) : s.SameRegistry s :=
  ⟨rfl, rfl, rfl, rfl, rfl, rfl, rfl, fun _ => rfl, fun _ => rfl, fun _ => rfl,
    fun _ => rfl, fun _ => rfl⟩

theorem PmState.SameRegistry.trans {s s' s'' : PmState Ω} (h : s.SameRegistry s')
    (h' : s'.SameRegistry s'') : s.SameRegistry s'' where
  handleCounter := h'.handleCounter.trans h.handleCounter
  pmNodeSlist := h'.pmNodeSlist.trans h.pmNodeSlist
  snode := h'.snode.trans h.snode
  subs := h'.subs.trans h.subs
  subSnode := h'.subSnode.trans h.subSnode
  subAllocated := h'.subAllocated.trans h.subAllocated
  epoch := h'.epoch.trans h.epoch
  handle i := (h'.handle i).trans (h.handle i)
  node i := (h'.node i).trans (h.node i)
  priority i := (h'.priority i).trans (h.priority i)
  enabled i := (h'.enabled i).trans (h.enabled i)
  subCallbacks i := (h'.subCallbacks i).trans (h.subCallbacks i)

theorem PmState.account_sameRegistry (P : Platform) (s : PmState Ω) (slot : ℕ)
    (t stop : BitVec 32) : s.SameRegistry (s.account P slot t stop) := by
  unfold PmState.account
  split
  · refine ⟨rfl, rfl, rfl, rfl, rfl, rfl, rfl, ?_, ?_, ?_, ?_, ?_⟩ <;>
    · intro i
      by_cases hi : i = slot
      · subst hi
        simp
      · simp [hi]
  · exact .refl s

@[simp] theorem PmState.account_cache (P : Platform) (s : PmState Ω) (slot : ℕ)
    (t stop : BitVec 32) : (s.account P slot t stop).cache = s.cache := by
  unfold PmState.account
  split <;> rfl

theorem Represents.of_sameRegistry {P : Platform} {s s' : PmState Ω}
    {regs : List (StepNodeChain Ω × ℕ)} {l : List ℕ} (h : Represents P s regs l)
    (hsame : s.SameRegistry s') : Represents P s' regs l :=
  h.of_same hsame.handleCounter hsame.pmNodeSlist hsame.snode
    fun i => ⟨hsame.handle i, hsame.node i, hsame.priority i⟩

theorem SubsRepresented.of_sameRegistry {pm pm' : PmState Ω} {subsOf : ℕ → List ℕ}
    (h : SubsRepresented pm subsOf) (hsame : pm.SameRegistry pm') : SubsRepresented pm' subsOf where
  holds i := by
    rw [hsame.subSnode, hsame.subCallbacks]
    exact h.holds i
  allocated := by
    rw [hsame.subAllocated]
    exact h.allocated
  attached i b hb := by
    rw [hsame.subs, h.attached i b hb, PmState.registrationAt, PmState.registrationAt,
      hsame.handleCounter, hsame.epoch]
  disjoint := h.disjoint
  linked := by
    rw [hsame.subAllocated, hsame.subs, hsame.subSnode]
    exact h.linked
  wiped i hi := by
    rw [hsame.handle, hsame.node]
    exact h.wiped i (hsame.handleCounter ▸ hi)

theorem ProcMove.sameRegistry {P : Platform} {s s' : Sys Ω} {p : Proc Ω} {inp : Inputs Ω}
    (h : ProcMove P s p inp s') : s.pm.SameRegistry s'.pm := by
  cases h with
  | relock _ _ _ => exact PmState.account_sameRegistry _ _ _ _ _
  | noMatch | enter =>
      exact ⟨rfl, rfl, rfl, rfl, rfl, rfl, rfl, fun _ => rfl, fun _ => rfl, fun _ => rfl,
        fun _ => rfl, fun _ => rfl⟩
  | _ => exact .refl _

theorem Proc.goOn_locked (p : Proc Ω) (snode : Links ℕ) (next : Option ℕ) :
    (p.goOn snode next).pc.Locked := by
  cases next <;> trivial

theorem Pc.InChain.not_locked {pc : Pc Ω} (h : pc.InChain) : ¬pc.Locked := by
  cases pc <;> simp_all [Pc.InChain, Pc.Locked]

/-- Inside a chain the thread is not at the loop body. -/
theorem Pc.InChain.ne_visit {pc : Pc Ω} (h : pc.InChain) : pc ≠ .visit := by
  rintro rfl
  exact h

/-- …nor at the relock. -/
theorem Pc.InChain.ne_relock {pc : Pc Ω} (h : pc.InChain) : pc ≠ .relock := by
  rintro rfl
  exact h

theorem Proc.goOn_not_inChain (p : Proc Ω) (snode : Links ℕ) (next : Option ℕ) :
    ¬(p.goOn snode next).pc.InChain :=
  fun hin => hin.not_locked (p.goOn_locked snode next)

/-- **The only way into a chain** is to enter it from the loop body. -/
theorem ProcMove.enter_of_inChain {P : Platform} {s s' : Sys Ω} {p p' : Proc Ω}
    {inp : Inputs Ω} (hmove : ProcMove P s p inp s') (hproc : s.proc = some p)
    (hout : ¬p.pc.InChain) (hproc' : s'.proc = some p') (hin : p'.pc.InChain) :
    ∃ chain, (s.pm.nodes p.pnode).node = some chain ∧
      p'.pnode = p.pnode ∧ p'.under = ⟨(s.pm.nodes p.pnode).handle, s.pm.epoch⟩ ∧
      p'.pc = .call .start 0 chain.head chain.rest := by
  cases hmove with
  | enter _ _ v cache chain _ _ hchain =>
      obtain rfl := Option.some.inj hproc'
      exact ⟨chain, hchain, rfl, rfl, rfl⟩
  | crash u => exact absurd (Option.some.inj (hproc.symm.trans hproc') ▸ hin) hout
  | chain hpc _ _ _ _ _ => exact absurd hpc hout
  | chainDone hpc _ _ _ => exact absurd hpc hout
  | tail _ => cases hproc'
  | lock _ _ _ | noMatch _ _ _ _ _ _ =>
      obtain rfl := Option.some.inj hproc'
      exact absurd hin id
  | head _ | skip _ _ | relock _ _ _ =>
      obtain rfl := Option.some.inj hproc'
      exact absurd (Proc.goOn_locked _ _ _) hin.not_locked

/-- **The lock discipline**: the work-queue thread holds the mutex, once, exactly
while its program counter says so, and nobody else holds it between steps. -/
def LockDiscipline (s : Sys Ω) : Prop :=
  match s.proc with
  | none => s.regAccess = .free
  | some p => (p.pc.Locked → s.regAccess = .held workQueueTid 0) ∧
      (¬p.pc.Locked → s.regAccess = .free)

section LockDiscipline

variable {P : Platform} {s s' : Sys Ω} {p : Proc Ω} {l : Label Ω}

theorem LockDiscipline.locked (h : LockDiscipline s) (hproc : s.proc = some p)
    (hpc : p.pc.Locked) : s.regAccess = .held workQueueTid 0 := by
  rw [LockDiscipline, hproc] at h
  exact h.1 hpc

theorem LockDiscipline.unlocked (h : LockDiscipline s) (hproc : s.proc = some p)
    (hpc : ¬p.pc.Locked) : s.regAccess = .free := by
  rw [LockDiscipline, hproc] at h
  exact h.2 hpc

theorem lockDiscipline_of_locked (hproc : s.proc = some p) (hpc : p.pc.Locked)
    (hheld : s.regAccess = .held workQueueTid 0) : LockDiscipline s := by
  rw [LockDiscipline, hproc]
  exact ⟨fun _ => hheld, fun hn => absurd hpc hn⟩

theorem lockDiscipline_of_unlocked (hproc : s.proc = some p) (hpc : ¬p.pc.Locked)
    (hfree : s.regAccess = .free) : LockDiscipline s := by
  rw [LockDiscipline, hproc]
  exact ⟨fun hl => absurd hl hpc, fun _ => hfree⟩

/-- **The step lemma of the mutex.** -/
theorem sysStep_lockDiscipline (h : LockDiscipline s) (hstep : sysStep P s l = some s') :
    LockDiscipline s' := by
  obtain ⟨-, hmove⟩ := sysStep_move hstep
  cases hmove with
  | process mesAddr mes free hproc =>
      rw [LockDiscipline, hproc] at h
      exact lockDiscipline_of_unlocked rfl id h
  | other t c _ _ _ => exact h
  | @proc inp p _ hproc hmove =>
      have hunlock : p.pc.Locked → s.regAccess.unlock workQueueTid = .free := by
        intro hpc
        rw [h.locked hproc hpc]
        rfl
      have hlock : ∀ m, ¬p.pc.Locked → s.regAccess.lock workQueueTid = some m →
          m = .held workQueueTid 0 := by
        intro m hpc hm
        rw [h.unlocked hproc hpc] at hm
        exact (Option.some.inj hm).symm
      cases hmove with
      | crash u => exact h
      | lock hpc m hm =>
          exact lockDiscipline_of_locked rfl trivial (hlock m (hpc ▸ id) hm)
      | head hpc =>
          exact lockDiscipline_of_locked rfl (Proc.goOn_locked _ _ _)
            (h.locked hproc (hpc ▸ trivial))
      | skip hpc _ =>
          exact lockDiscipline_of_locked rfl (Proc.goOn_locked _ _ _)
            (h.locked hproc (hpc ▸ trivial))
      | noMatch hpc =>
          exact lockDiscipline_of_unlocked rfl id (hunlock (hpc ▸ trivial))
      | enter hpc =>
          exact lockDiscipline_of_unlocked rfl id (hunlock (hpc ▸ trivial))
      | chain hpc p' _ hpc' _ _ =>
          exact lockDiscipline_of_unlocked rfl hpc'.not_locked
            (h.unlocked hproc hpc.not_locked)
      | chainDone hpc p' _ hpc' =>
          exact lockDiscipline_of_unlocked rfl (hpc' ▸ id) (h.unlocked hproc hpc.not_locked)
      | relock hpc m hm =>
          exact lockDiscipline_of_locked rfl (Proc.goOn_locked _ _ _)
            (hlock m (hpc ▸ id) hm)
      | tail hpc => exact hunlock (hpc ▸ trivial)

/-- While the work-queue thread holds the mutex, the other threads can do nothing
but write enabled flags. -/
theorem not_locks_of_locked (h : LockDiscipline s) (hproc : s.proc = some p)
    (hpc : p.pc.Locked) {t : Tid} {c : ApiCall Ω} (ht : t ≠ workQueueTid)
    (hlock : c.locks → s.regAccess.lock t ≠ none) : ¬c.locks := by
  intro hlocks
  refine hlock hlocks ?_
  rw [h.locked hproc hpc, KMutex.lock, if_neg (Ne.symm ht)]

end LockDiscipline

/-! ### Reachable systems -/

/-- The calls of other threads stay inside the array of records. -/
def Label.InRange (P : Platform) : Label Ω → Prop
  | .other _ c => c.HandleBelow P.nodeLimit
  | _ => True

/-- What is in flight is the dispatch that was started: no other one begins. -/
def Label.InFlight : Label Ω → Prop
  | .process _ _ _ => False
  | _ => True

/-- **The states the system can reach**, by any interleaving of processed
measurements and calls. -/
def ReachableSys (P : Platform) (s : Sys Ω) : Prop :=
  ∃ ls : List (Label Ω), (∀ l ∈ ls, l.InRange P) ∧ run (sysStep P) (Sys.init P) ls = some s

/-- What holds of the mutex and the registry in every reachable state. -/
structure SysInvariant (P : Platform) (s : Sys Ω) : Prop where
  lock : LockDiscipline s
  registry : ∃ regs l, Represents P s.pm regs l

theorem sysInvariant_init (P : Platform) : SysInvariant P (Sys.init P : Sys Ω) :=
  ⟨rfl, [], [], represents_init P⟩

/-- **The step lemma of the system.** -/
theorem sysStep_invariant {P : Platform} {s s' : Sys Ω} {l : Label Ω}
    (h : SysInvariant P s) (hstep : sysStep P s l = some s') : SysInvariant P s' := by
  refine ⟨sysStep_lockDiscipline h.lock hstep, ?_⟩
  obtain ⟨regs, l, hrep⟩ := h.registry
  obtain ⟨-, hmove⟩ := sysStep_move hstep
  cases hmove with
  | process _ _ _ _ => exact ⟨regs, l, hrep⟩
  | proc _ hmove => exact ⟨regs, l, hrep.of_sameRegistry hmove.sameRegistry⟩
  | other t c _ _ _ =>
      obtain ⟨l', hrep', -⟩ := apiCall_represents hrep c
      exact ⟨_, l', hrep'⟩

theorem run_sysInvariant {P : Platform} {s s' : Sys Ω} {ls : List (Label Ω)}
    (h : SysInvariant P s) (hrun : run (sysStep P) s ls = some s') : SysInvariant P s' :=
  run_preserves (fun _ _ _ hI hstep => sysStep_invariant hI hstep) h hrun

theorem ReachableSys.sysInvariant {P : Platform} {s : Sys Ω} (h : ReachableSys P s) :
    SysInvariant P s := by
  obtain ⟨ls, -, hrun⟩ := h
  exact run_sysInvariant (sysInvariant_init P) hrun

end StepPipeline
