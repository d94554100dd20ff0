import StepPipeline.BrokerCalls

/-!
# An undisturbed dispatch serves as the broker does

The work-queue thread, left alone with a measurement, plays the dispatch of the broker:
program counter, prefetched successors, links and locks come to nothing else than one
registration after the other.

* `dispatcher` — the system as a machine that only the work-queue thread moves;
* `Stands` — where the thread stands, what it has in hand, and that the registry has not
  changed since it started;
* `plays_handler`, `plays_chain`, `plays_subscribers`, `plays_entry`, `plays_dispatch` —
  the levels of the broker, each played from one program counter to another.

## How a level is played

`Machine.Plays` has two sides: whatever the thread does, left alone from an entry place to an exit
place, is something the behaviour allows, and whatever the behaviour allows is done by some choice
of surroundings.  Both are proved at once, step by step.  The steps of the thread that are visible
are the constructors of the behaviours; the others (locks, links, tests) are silent.

Each level names the places between which it is played by a program counter and what the thread
has in hand, and the levels are put together by `Plays.seq` and `Plays.each_cons`, in the same way
as the behaviours are.  So the proofs follow the text of `Broker`, and a change to one of the
loops of the code would be felt in the lemma about its level only.

## Why `Ω` is inhabited

A step of the thread that calls nothing still has a label, which carries a world.  To say that the
thread makes such a step there has to be one.
-/

namespace StepPipeline

open IntrusiveList LabelledRun Behaviour

variable {Ω : Type}

/-- **The system with the work-queue thread left alone.** -/
def dispatcher (P : Platform) : Machine (Sys Ω) (Label Ω) Call UndefinedBehaviour where
  step := sysStep P
  mine l := ∃ inp, l = .proc inp
  seen s := calls s.log
  fault := Sys.fault

/-! ### Where the thread stands -/

/-- The thread is on its way with the measurement at `mesAddr`, and has `d` in hand; the registry
is still `pm₀`.  Only the counters of the instrumentation and the cache may have changed since the
dispatch began, as nobody else moves. -/
structure Underway (pm₀ : PmState Ω) (mesAddr : ℕ) (free : Bool) (s : Sys Ω) (p : Proc Ω)
    (d : Delivery) : Prop where
  proc : s.proc = some p
  fault : s.fault = none
  lock : LockDiscipline s
  registry : pm₀.SameRegistry s.pm
  mesAddr : p.mesAddr = mesAddr
  free : p.free = free
  mes : p.mes = d.mes
  rc : p.rc = d.rc
  cache : s.pm.cache = d.cache

/-- **It stands at `pc`**, in the loop body for `pnode`.  The local variables the broker knows
nothing of are named here, those it knows of are in the delivery. -/
def Stands (pm₀ : PmState Ω) (mesAddr : ℕ) (free : Bool) (pnode : ℕ) (tmp : Option ℕ)
    (pc : Pc Ω) (s : Sys Ω) (d : Delivery) : Prop :=
  ∃ p, Underway pm₀ mesAddr free s p d ∧ p.pnode = pnode ∧ p.tmp = tmp ∧ p.pc = pc

section Steps

variable {P : Platform} {s s' : Sys Ω} {p q : Proc Ω} {inp : Inputs Ω} {pm₀ : PmState Ω}
  {mesAddr i : ℕ} {free : Bool} {tmp : Option ℕ} {d : Delivery} {phase : Phase}
  {inst : ℕ} {n : StepNode Ω} {next : List (StepNode Ω)}

/-- A step of the thread that does not leave defined behaviour. -/
theorem Underway.advance (h : Underway pm₀ mesAddr free s p d) (d' : Delivery)
    (hstep : procStep P s p inp = some s') (hproc : s'.proc = some q)
    (hfault : s'.fault = none) (hmesAddr : q.mesAddr = p.mesAddr) (hfree : q.free = p.free)
    (hmes : q.mes = d'.mes) (hrc : q.rc = d'.rc) (hcache : s'.pm.cache = d'.cache) :
    sysStep P s (.proc inp) = some s' ∧ Underway pm₀ mesAddr free s' q d' := by
  have hsys : sysStep P s (.proc inp) = some s' := by simpa [sysStep, h.fault, h.proc] using hstep
  refine ⟨hsys, hproc, hfault, sysStep_lockDiscipline h.lock hsys,
    h.registry.trans (procStep_move hstep).sameRegistry, hmesAddr.trans h.mesAddr,
    hfree.trans h.free, hmes, hrc, hcache⟩

/-- A step that leaves it. -/
theorem Underway.crash (h : Underway pm₀ mesAddr free s p d) {u : UndefinedBehaviour}
    (hstep : procStep P s p inp = some (s.crash u)) :
    sysStep P s (.proc inp) = some (s.crash u) := by
  simpa [sysStep, h.fault, h.proc] using hstep

/-- The handle a callback receives. -/
theorem Underway.handle (h : Underway pm₀ mesAddr free s p d)
    (hhandle : (pm₀.nodes i).handle = i) (hpnode : p.pnode = i) :
    (s.pm.nodes p.pnode).handle = i := by
  rw [hpnode, h.registry.handle, hhandle]

variable (P)

/-- **A handler that is not there.** -/
theorem Stands.step_absent (h : Stands pm₀ mesAddr free i tmp (.call phase inst n next) s d)
    (hnone : n.callbacks.handler phase = none) (inp : Inputs Ω) :
    ∃ s', sysStep P s (.proc inp) = some s' ∧ calls s'.log = calls s.log ∧
      Stands pm₀ mesAddr free i tmp (afterPhase phase inst n next) s' d := by
  obtain ⟨p, hp, hpnode, htmp, hpc⟩ := h
  have hstep : procStep P s p inp =
      some { s with proc := some { p with pc := afterPhase phase inst n next } } := by
    simp only [procStep, hpc, hnone]
  obtain ⟨hsys, hq⟩ := hp.advance d hstep rfl hp.fault rfl rfl hp.mes hp.rc hp.cache
  exact ⟨_, hsys, rfl, _, hq, hpnode, htmp, rfl⟩

/-- **A handler that is called.** -/
theorem Stands.step_handler (h : Stands pm₀ mesAddr free i tmp (.call phase inst n next) s d)
    (hhandle : (pm₀.nodes i).handle = i) {f : FnPtr (StepNodeCallback Ω)}
    (hsome : n.callbacks.handler phase = some f) (inp : Inputs Ω) {rc : ℤ}
    {mes : StepMeasurement} (hcode : f.code inp.world d.mes i inst = (rc, mes)) :
    ∃ s', sysStep P s (.proc inp) = some s' ∧
      calls s'.log = calls s.log ++ [.handler phase f.addr mesAddr i inst rc] ∧
      Stands pm₀ mesAddr free i tmp
        (if rc = 0 then afterPhase phase inst n next else .error phase inst n next rc) s'
        { d with mes := mes } := by
  obtain ⟨p, hp, hpnode, htmp, hpc⟩ := h
  have hstep : procStep P s p inp =
      some
        { s with
          log := s.log ++ [.handler phase f.addr p.mesAddr i inst rc p.under]
          proc := some
            { p with
              mes := mes
              pc := if rc = 0 then afterPhase phase inst n next
                else .error phase inst n next rc } } := by
    simp only [procStep, hpc, hsome, hp.handle hhandle hpnode, hp.mes, hcode]
  obtain ⟨hsys, hq⟩ := hp.advance { d with mes := mes } hstep rfl hp.fault rfl rfl rfl
    hp.rc hp.cache
  refine ⟨_, hsys, ?_, _, hq, hpnode, htmp, rfl⟩
  simp [Event.call, hp.mesAddr]

/-- **The error handler**, if there is one. -/
theorem Stands.step_error {code : ℤ}
    (h : Stands pm₀ mesAddr free i tmp (.error phase inst n next code) s d)
    (hhandle : (pm₀.nodes i).handle = i) {e : FnPtr (StepNodeError Ω)}
    (hsome : n.callbacks.errorHandler = some e) (inp : Inputs Ω) :
    ∃ s', sysStep P s (.proc inp) = some s' ∧
      calls s'.log = calls s.log ++ [.error phase e.addr mesAddr i inst code] ∧
      Stands pm₀ mesAddr free i tmp (afterPhase phase inst n next) s'
        { d with mes := (e.code inp.world (some d.mes) i inst code).getD d.mes } := by
  obtain ⟨p, hp, hpnode, htmp, hpc⟩ := h
  have hstep : procStep P s p inp =
      some
        { s with
          log := s.log ++ [.error phase e.addr p.mesAddr i inst code p.under]
          proc := some
            { p with
              mes := (e.code inp.world (some d.mes) i inst code).getD d.mes
              pc := afterPhase phase inst n next } } := by
    simp only [procStep, hpc, hsome, hp.handle hhandle hpnode, hp.mes]
  obtain ⟨hsys, hq⟩ := hp.advance
    { d with mes := (e.code inp.world (some d.mes) i inst code).getD d.mes } hstep rfl
    hp.fault rfl rfl rfl hp.rc hp.cache
  refine ⟨_, hsys, ?_, _, hq, hpnode, htmp, rfl⟩
  simp [Event.call, hp.mesAddr]

/-- **No error handler** to report to. -/
theorem Stands.step_unreported {code : ℤ}
    (h : Stands pm₀ mesAddr free i tmp (.error phase inst n next code) s d)
    (hnone : n.callbacks.errorHandler = none) (inp : Inputs Ω) :
    sysStep P s (.proc inp) = some (s.crash .nullCall) := by
  obtain ⟨p, hp, -, -, hpc⟩ := h
  refine hp.crash ?_
  simp only [procStep, hpc, hnone]

/-- Going on in the list of subscribers. -/
def subsPc (subSnode : Links ℕ) : Option ℕ → Pc Ω
  | none => .relock
  | some b => .subs b (subSnode b)

theorem goOnSubs_eq (p : Proc Ω) (subSnode : Links ℕ) (next : Option ℕ) :
    (p.goOnSubs subSnode next).pc = subsPc subSnode next ∧
      (p.goOnSubs subSnode next).mes = p.mes := by
  cases next <;> exact ⟨rfl, rfl⟩

theorem calls_doneEvents (slot : ℕ) (next : Option ℕ) : calls (doneEvents slot next) = [] := by
  unfold doneEvents
  split <;> rfl

/-- **The first subscriber is fetched.** -/
theorem Stands.step_subsHead (h : Stands pm₀ mesAddr free i tmp .subsHead s d)
    (inp : Inputs Ω) :
    ∃ s', sysStep P s (.proc inp) = some s' ∧ calls s'.log = calls s.log ∧
      Stands pm₀ mesAddr free i tmp
        (subsPc pm₀.subSnode (pm₀.nodes i).subCallbacks.head) s' d := by
  obtain ⟨p, hp, hpnode, htmp, hpc⟩ := h
  let next := (s.pm.nodes p.pnode).subCallbacks.head
  have hstep : procStep P s p inp =
      some
        { s with
          log := s.log ++ doneEvents p.pnode next
          proc := some ({ p with fetched := s.pm.epoch }.goOnSubs s.pm.subSnode next) } := by
    simp only [procStep, hpc, next]
  have hsame := p.goOnSubs_sameVisit s.pm.epoch s.pm.subSnode next
  have hgo := goOnSubs_eq { p with fetched := s.pm.epoch } s.pm.subSnode next
  obtain ⟨hsys, hq⟩ := hp.advance d hstep rfl hp.fault hsame.mesAddr hsame.free
    (hgo.2.trans hp.mes) (hsame.rc.trans hp.rc) hp.cache
  refine ⟨_, hsys, ?_, _, hq, hsame.pnode.trans hpnode, hsame.tmp.trans htmp, ?_⟩
  · simp [calls_doneEvents]
  · rw [hgo.1, hp.registry.subSnode]
    simp only [next, hpnode, hp.registry.subCallbacks]

/-- **A subscriber.** -/
theorem Stands.step_subscriber {b : ℕ} {subsTmp : Option ℕ}
    (h : Stands pm₀ mesAddr free i tmp (.subs b subsTmp) s d)
    (hhandle : (pm₀.nodes i).handle = i) {f : FnPtr (NodeChainCompletedCallback Ω)}
    (hsome : (pm₀.subs b).cb = some f) (inp : Inputs Ω) :
    ∃ s', sysStep P s (.proc inp) = some s' ∧
      calls s'.log = calls s.log ++ [.subscriber f.addr mesAddr i (pm₀.subs b).userData] ∧
      Stands pm₀ mesAddr free i tmp (.subsNext subsTmp) s'
        { d with mes := f.code inp.world d.mes i (pm₀.subs b).userData } := by
  obtain ⟨p, hp, hpnode, htmp, hpc⟩ := h
  let mes := f.code inp.world d.mes i (pm₀.subs b).userData
  have hstep : procStep P s p inp =
      some
        { s with
          log := s.log ++
            [.subscriber b f.addr p.mesAddr i (pm₀.subs b).userData (pm₀.subs b).subscribedTo
              p.under]
          proc := some { p with mes := mes, pc := .subsNext subsTmp } } := by
    simp only [procStep, hpc, hp.registry.subs, hsome, hp.handle hhandle hpnode, hp.mes, mes]
  obtain ⟨hsys, hq⟩ := hp.advance { d with mes := mes } hstep rfl hp.fault rfl rfl rfl
    hp.rc hp.cache
  refine ⟨_, hsys, ?_, _, hq, hpnode, htmp, rfl⟩
  simp [Event.call, hp.mesAddr]

/-- A subscriber that has no function. -/
theorem Stands.step_noSubscriber {b : ℕ} {subsTmp : Option ℕ}
    (h : Stands pm₀ mesAddr free i tmp (.subs b subsTmp) s d)
    (hnone : (pm₀.subs b).cb = none) (inp : Inputs Ω) :
    ∃ s', sysStep P s (.proc inp) = some s' ∧ calls s'.log = calls s.log ∧
      Stands pm₀ mesAddr free i tmp (.subsNext subsTmp) s' d := by
  obtain ⟨p, hp, hpnode, htmp, hpc⟩ := h
  have hstep : procStep P s p inp =
      some { s with proc := some { p with pc := .subsNext subsTmp } } := by
    simp only [procStep, hpc, hp.registry.subs, hnone]
  obtain ⟨hsys, hq⟩ := hp.advance d hstep rfl hp.fault rfl rfl hp.mes hp.rc hp.cache
  exact ⟨_, hsys, rfl, _, hq, hpnode, htmp, rfl⟩

/-- **On to the next subscriber.** -/
theorem Stands.step_subsNext {subsTmp : Option ℕ}
    (h : Stands pm₀ mesAddr free i tmp (.subsNext subsTmp) s d) (inp : Inputs Ω) :
    ∃ s', sysStep P s (.proc inp) = some s' ∧ calls s'.log = calls s.log ∧
      Stands pm₀ mesAddr free i tmp (subsPc pm₀.subSnode subsTmp) s' d := by
  obtain ⟨p, hp, hpnode, htmp, hpc⟩ := h
  have hstep : procStep P s p inp =
      some
        { s with
          log := s.log ++ doneEvents p.pnode subsTmp
          proc := some (p.goOnSubs s.pm.subSnode subsTmp) } := by
    simp only [procStep, hpc]
  have hsame := p.goOnSubs_sameVisit p.fetched s.pm.subSnode subsTmp
  have hgo := goOnSubs_eq p s.pm.subSnode subsTmp
  obtain ⟨hsys, hq⟩ := hp.advance d hstep rfl hp.fault hsame.mesAddr hsame.free
    (hgo.2.trans hp.mes) (hsame.rc.trans hp.rc) hp.cache
  refine ⟨_, hsys, ?_, _, hq, hsame.pnode.trans hpnode, hsame.tmp.trans htmp, ?_⟩
  · simp [calls_doneEvents]
  · rw [hgo.1, hp.registry.subSnode]

/-- It stands in front of the records `l` that are left.  The first of them is `pnode`, the second
the prefetched successor; behind the last one the dispatch is at its end. -/
def AtRecords (pm₀ : PmState Ω) (mesAddr : ℕ) (free : Bool) :
    List ℕ → Sys Ω → Delivery → Prop
  | [], s, d => ∃ p, Underway pm₀ mesAddr free s p d ∧ p.pc = .tail
  | i :: rest, s, d => Stands pm₀ mesAddr free i rest.head? .visit s d

theorem goOn_eq (p : Proc Ω) (snode : Links ℕ) (next : Option ℕ) :
    (p.goOn snode next).mesAddr = p.mesAddr ∧ (p.goOn snode next).free = p.free ∧
      (p.goOn snode next).mes = p.mes ∧ (p.goOn snode next).rc = p.rc := by
  cases next <;> exact ⟨rfl, rfl, rfl, rfl⟩

/-- Going on in the list of records. -/
theorem atRecords_goOn {rest : List ℕ} (hpath : Path pm₀.snode rest.head? rest)
    {snode : Links ℕ} (hsnode : snode = pm₀.snode) (htmp : tmp = rest.head?)
    (h : Underway pm₀ mesAddr free s (p.goOn snode tmp) d) :
    AtRecords pm₀ mesAddr free rest s d := by
  subst hsnode htmp
  cases rest with
  | nil => exact ⟨_, h, rfl⟩
  | cons i rest => exact ⟨_, h, rfl, hpath.2.start_eq, rfl⟩

/-- **The registry is locked again**, and the time of the record is taken. -/
theorem Stands.step_relock {rest : List ℕ} (hpath : Path pm₀.snode rest.head? rest)
    (h : Stands pm₀ mesAddr free i rest.head? .relock s d) (inp : Inputs Ω) :
    ∃ s', sysStep P s (.proc inp) = some s' ∧ calls s'.log = calls s.log ∧
      AtRecords pm₀ mesAddr free rest s' d := by
  obtain ⟨p, hp, hpnode, htmp, hpc⟩ := h
  have hfree : s.regAccess = .free := hp.lock.unlocked hp.proc (hpc ▸ id)
  have hstep : procStep P s p inp =
      some
        { s with
          regAccess := .held workQueueTid 0
          pm := s.pm.account P p.pnode p.instr inp.cycles
          proc := some (p.goOn s.pm.snode p.tmp) } := by
    simp only [procStep, hpc, hfree, KMutex.lock, Option.map_some]
  obtain ⟨hmesAddr, hfreeOf, hmes, hrc⟩ := goOn_eq p s.pm.snode p.tmp
  obtain ⟨hsys, hq⟩ := hp.advance d hstep rfl hp.fault hmesAddr hfreeOf
    (hmes.trans hp.mes) (hrc.trans hp.rc) ((PmState.account_cache _ _ _ _ _).trans hp.cache)
  exact ⟨_, hsys, rfl, atRecords_goOn hpath hp.registry.snode htmp hq⟩

/-- **A record that is disabled.** -/
theorem Stands.step_disabled {rest : List ℕ} (hpath : Path pm₀.snode rest.head? rest)
    (h : Stands pm₀ mesAddr free i rest.head? .visit s d)
    (hoff : (pm₀.nodes i).enabled = false) (inp : Inputs Ω) :
    ∃ s', sysStep P s (.proc inp) = some s' ∧ calls s'.log = calls s.log ∧
      AtRecords pm₀ mesAddr free rest s' d := by
  obtain ⟨p, hp, hpnode, htmp, hpc⟩ := h
  have hoff' : (s.pm.nodes p.pnode).enabled = false := by
    rw [hpnode, hp.registry.enabled, hoff]
  have hstep : procStep P s p inp =
      some
        { s with
          log := s.log ++ [.visit p.pnode false]
          proc := some (p.goOn s.pm.snode p.tmp) } := by
    simp [procStep_visit hpc, visitStep, hoff']
  obtain ⟨hmesAddr, hfree, hmes, hrc⟩ := goOn_eq p s.pm.snode p.tmp
  obtain ⟨hsys, hq⟩ := hp.advance d hstep rfl hp.fault hmesAddr hfree
    (hmes.trans hp.mes) (hrc.trans hp.rc) hp.cache
  refine ⟨_, hsys, ?_, atRecords_goOn hpath hp.registry.snode htmp hq⟩
  simp [Event.call]

/-- A lookup reads the chain and the handle of a record, and nothing else. -/
theorem lookupVerdict_congr {r r' : StepPmNodeRecord Ω} (hnode : r.node = r'.node)
    (hhandle : r.handle = r'.handle) (cache : StepCache) (mes : StepMeasurement)
    (mesAddr : ℕ) (rc : ℤ) (inp : Inputs Ω) :
    lookupVerdict P cache r mes mesAddr rc inp =
      lookupVerdict P cache r' mes mesAddr rc inp := by
  simp only [lookupVerdict, evaluateRecord, hnode, hhandle]

/-- What the thread looks up is what the broker looks up. -/
theorem Underway.lookupVerdict_eq (h : Underway pm₀ mesAddr free s p d) {blocks : List ℕ}
    {e : BrokerEntry Ω} (hm : Mirrors pm₀ blocks i e) (hhandle : (pm₀.nodes i).handle = i)
    (hpnode : p.pnode = i) (inp : Inputs Ω) :
    lookupVerdict P s.pm.cache (s.pm.nodes p.pnode) p.mes p.mesAddr p.rc inp =
      lookupVerdict P d.cache e.record d.mes mesAddr d.rc inp := by
  rw [h.cache, h.mes, h.mesAddr, h.rc]
  refine lookupVerdict_congr P ?_ ?_ _ _ _ _ _
  · rw [hpnode, h.registry.node]
    exact hm.node
  · rw [h.handle hhandle hpnode]
    exact hm.handle.symm

section Visit

variable {blocks : List ℕ} {e : BrokerEntry Ω} {v : Verdict} {cache : StepCache}

/-- A verdict that leaves defined behaviour. -/
theorem Stands.step_invalid (h : Stands pm₀ mesAddr free i tmp .visit s d)
    (hm : Mirrors pm₀ blocks i e) (hhandle : (pm₀.nodes i).handle = i)
    (hon : e.enabled = true) {u : UndefinedBehaviour}
    (hv : lookupVerdict P d.cache e.record d.mes mesAddr d.rc inp = .error u) :
    sysStep P s (.proc inp) = some (s.crash u) := by
  obtain ⟨p, hp, hpnode, -, hpc⟩ := h
  have hon' : (s.pm.nodes p.pnode).enabled = true := by
    rw [hpnode, hp.registry.enabled, hm.enabled, hon]
  have hv' := (hp.lookupVerdict_eq P hm hhandle hpnode inp).trans hv
  refine hp.crash ?_
  simp only [procStep_visit hpc, visitStep, hon', if_true, hv']

/-- **A record that does not accept the measurement.** -/
theorem Stands.step_rejected (h : Stands pm₀ mesAddr free i tmp .visit s d)
    (hm : Mirrors pm₀ blocks i e) (hhandle : (pm₀.nodes i).handle = i)
    (hon : e.enabled = true)
    (hv : lookupVerdict P d.cache e.record d.mes mesAddr d.rc inp = .ok (v, cache))
    (hzero : v.value = 0) :
    ∃ s', sysStep P s (.proc inp) = some s' ∧ calls s'.log = calls s.log ++ calls v.events ∧
      Stands pm₀ mesAddr free i tmp .relock s' ⟨v.mes, v.rc, cache⟩ := by
  obtain ⟨p, hp, hpnode, htmp, hpc⟩ := h
  have hon' : (s.pm.nodes p.pnode).enabled = true := by
    rw [hpnode, hp.registry.enabled, hm.enabled, hon]
  have hv' := (hp.lookupVerdict_eq P hm hhandle hpnode inp).trans hv
  have hstep : procStep P s p inp =
      some
        { s with
          pm := { s.pm with cache := cache }
          regAccess := s.regAccess.unlock workQueueTid
          log := s.log ++ (.visit p.pnode true :: v.events ++ [.verdict p.pnode v.value])
          proc := some
            { p with rc := v.rc, mes := v.mes, instr := inp.cycles, pc := .relock } } := by
    simp only [procStep_visit hpc, visitStep, hon', if_true, hv', hzero]
  obtain ⟨hsys, hq⟩ := hp.advance ⟨v.mes, v.rc, cache⟩ hstep rfl hp.fault rfl rfl rfl
    rfl rfl
  refine ⟨_, hsys, ?_, _, hq, hpnode, htmp, rfl⟩
  simp [Event.call]

/-- **A record that accepts it.** -/
theorem Stands.step_accepted (h : Stands pm₀ mesAddr free i tmp .visit s d)
    (hm : Mirrors pm₀ blocks i e) (hhandle : (pm₀.nodes i).handle = i)
    (hon : e.enabled = true)
    (hv : lookupVerdict P d.cache e.record d.mes mesAddr d.rc inp = .ok (v, cache))
    (hne : v.value ≠ 0) :
    ∃ s', sysStep P s (.proc inp) = some s' ∧ calls s'.log = calls s.log ++ calls v.events ∧
      Stands pm₀ mesAddr free i tmp (.call .start 0 e.chain.head e.chain.rest) s'
        ⟨v.mes, v.rc, cache⟩ := by
  obtain ⟨p, hp, hpnode, htmp, hpc⟩ := h
  have hon' : (s.pm.nodes p.pnode).enabled = true := by
    rw [hpnode, hp.registry.enabled, hm.enabled, hon]
  have hnode : (s.pm.nodes p.pnode).node = some e.chain := by
    rw [hpnode, hp.registry.node, hm.node]
  have hv' := (hp.lookupVerdict_eq P hm hhandle hpnode inp).trans hv
  have hstep : procStep P s p inp =
      some
        { s with
          pm := { s.pm with cache := cache }
          regAccess := s.regAccess.unlock workQueueTid
          log := s.log ++ (.visit p.pnode true :: v.events ++ [.verdict p.pnode v.value]) ++
            [.execute p.pnode]
          proc := some
            { p with
              rc := v.rc
              mes := v.mes
              instr := inp.cycles
              under := ⟨(s.pm.nodes p.pnode).handle, s.pm.epoch⟩
              pc := .call .start 0 e.chain.head e.chain.rest } } := by
    simp only [procStep_visit hpc, visitStep, hon', if_true, hv', if_neg hne, hnode]
  obtain ⟨hsys, hq⟩ := hp.advance ⟨v.mes, v.rc, cache⟩ hstep rfl hp.fault rfl rfl rfl
    rfl rfl
  refine ⟨_, hsys, ?_, _, hq, hpnode, htmp, rfl⟩
  simp [Event.call]

end Visit

end Steps

/-! ### The levels of the broker -/

section Plays

/-- What a label of the thread carries where only one world is read. -/
def Inputs.ofWorld (world : Ω) : Inputs Ω := ⟨world, world, 0, 0#32⟩

variable [Inhabited Ω]

instance : Inhabited (Label Ω) := ⟨.proc (.ofWorld default)⟩

theorem dispatcher_mine_default (P : Platform) :
    (dispatcher P).mine (default : Label Ω) :=
  ⟨_, rfl⟩

variable (P : Platform) {pm₀ : PmState Ω} {mesAddr i : ℕ} {free : Bool} {tmp : Option ℕ}

/-- **The error handler**, behind a handler that failed. -/
theorem plays_error (hhandle : (pm₀.nodes i).handle = i) (phase : Phase) (inst : ℕ)
    (n : StepNode Ω) (next : List (StepNode Ω)) (code : ℤ) :
    (dispatcher P).Plays (Stands pm₀ mesAddr free i tmp (.error phase inst n next code))
      (Stands pm₀ mesAddr free i tmp (afterPhase phase inst n next))
      (ReportRuns mesAddr i n inst phase code) := by
  refine .step ?_ ?_
  · rintro s d l h ⟨inp, rfl⟩
    cases herror : n.callbacks.errorHandler with
    | none =>
        exact ⟨_, [], _, h.step_unreported P herror inp, .unreported herror,
          (List.append_nil _).symm, rfl⟩
    | some e =>
        obtain ⟨s', hs', hcalls, hexit⟩ := h.step_error P hhandle herror inp
        exact ⟨s', _, _, hs', .reported e herror inp.world, hcalls, hexit⟩
  · intro s d t r h hr
    cases hr with
    | reported e herror world =>
        obtain ⟨s', hs', hcalls, hexit⟩ :=
          h.step_error P hhandle herror (.ofWorld world)
        exact ⟨_, s', ⟨_, rfl⟩, hs', hcalls, hexit⟩
    | unreported herror =>
        exact ⟨default, _, dispatcher_mine_default P, h.step_unreported P herror _,
          (List.append_nil _).symm, rfl⟩

/-- **A handler of a node**, with what follows if it fails. -/
theorem plays_handler (hhandle : (pm₀.nodes i).handle = i) (phase : Phase) (inst : ℕ)
    (n : StepNode Ω) (next : List (StepNode Ω)) :
    (dispatcher P).Plays (Stands pm₀ mesAddr free i tmp (.call phase inst n next))
      (Stands pm₀ mesAddr free i tmp (afterPhase phase inst n next))
      (HandlerRuns mesAddr i n inst phase) := by
  constructor
  · intro s d labels h hmine
    obtain ⟨inp, hinp⟩ := hmine 0
    cases hf : n.callbacks.handler phase with
    | none =>
        obtain ⟨s', hs', hcalls, hexit⟩ := h.step_absent P hf inp
        exact ⟨1, s', [], _, Machine.run_labels_one (hinp ▸ hs'), .absent hf,
          hcalls.trans (List.append_nil _).symm, hexit⟩
    | some f =>
        obtain ⟨rc, mes, hcode⟩ : ∃ rc mes, f.code inp.world d.mes i inst = (rc, mes) :=
          ⟨_, _, rfl⟩
        obtain ⟨s', hs', hcalls, hexit⟩ := h.step_handler P hhandle hf inp hcode
        by_cases hrc : rc = 0
        · subst hrc
          exact ⟨1, s', _, _, Machine.run_labels_one (hinp ▸ hs'),
            .done f hf inp.world mes hcode, hcalls, hexit⟩
        · rw [if_neg hrc] at hexit
          obtain ⟨k, s'', t', r, hrun, hr, hended⟩ :=
            (plays_error P hhandle phase inst n next rc).sound_after hmine (hinp ▸ hs') hcalls hexit
          exact ⟨k, s'', _, r, hrun, .failed f hf inp.world rc mes hcode hrc hr, hended⟩
  · intro s d t r h hr
    cases hr with
    | absent hf =>
        obtain ⟨s', hs', hcalls, hexit⟩ := h.step_absent P hf (.ofWorld default)
        exact Machine.Ended.of_step ⟨_, rfl⟩ hs' ⟨hcalls.trans (List.append_nil _).symm, hexit⟩
    | done f hf world mes hcode =>
        obtain ⟨s', hs', hcalls, hexit⟩ :=
          h.step_handler P hhandle hf (.ofWorld world) hcode
        exact Machine.Ended.of_step ⟨_, rfl⟩ hs' ⟨hcalls, hexit⟩
    | failed f hf world code mes hcode hne hreport =>
        obtain ⟨s', hs', hcalls, hexit⟩ :=
          h.step_handler P hhandle hf (.ofWorld world) hcode
        rw [if_neg hne] at hexit
        exact (plays_error P hhandle phase inst n next code).complete_after ⟨_, rfl⟩ hs' hcalls
          hexit hreport

/-- Where the thread stands in front of the nodes that are left of a chain. -/
def nodesPc (inst : ℕ) : List (StepNode Ω) → Pc Ω
  | [] => .subsHead
  | n :: next => .call .start inst n next

/-- **A node.** -/
theorem plays_node (hhandle : (pm₀.nodes i).handle = i) (inst : ℕ) (n : StepNode Ω)
    (next : List (StepNode Ω)) :
    (dispatcher P).Plays (Stands pm₀ mesAddr free i tmp (nodesPc inst (n :: next)))
      (Stands pm₀ mesAddr free i tmp (nodesPc (inst + 1) next)) (NodeRuns mesAddr i n inst) := by
  have hlast : afterPhase .stop inst n next = nodesPc (inst + 1) next := by
    cases next <;> rfl
  have hstop : (dispatcher P).Plays (Stands pm₀ mesAddr free i tmp (.call .stop inst n next))
      (Stands pm₀ mesAddr free i tmp (nodesPc (inst + 1) next))
      (HandlerRuns mesAddr i n inst .stop) :=
    hlast ▸ plays_handler P hhandle .stop inst n next
  exact (plays_handler P hhandle .start inst n next).seq
    ((plays_handler P hhandle .exec inst n next).seq hstop)

/-- **The nodes of a chain.** -/
theorem plays_chain (hhandle : (pm₀.nodes i).handle = i) (inst : ℕ)
    (nodes : List (StepNode Ω)) :
    (dispatcher P).Plays (Stands pm₀ mesAddr free i tmp (nodesPc inst nodes))
      (Stands pm₀ mesAddr free i tmp .subsHead) (ChainRuns mesAddr i inst nodes) := by
  induction nodes generalizing inst with
  | nil => exact .each_nil
  | cons n nodes ih =>
      rw [ChainRuns, List.zipIdx_cons]
      exact Machine.Plays.each_cons (plays_node P hhandle inst n nodes) (ih (inst + 1))

/-- **A subscription**, up to the next one. -/
theorem plays_subscriber (hhandle : (pm₀.nodes i).handle = i) (b : ℕ) (subsTmp : Option ℕ) :
    (dispatcher P).Plays (Stands pm₀ mesAddr free i tmp (.subs b subsTmp))
      (Stands pm₀ mesAddr free i tmp (subsPc pm₀.subSnode subsTmp))
      (SubscriberRuns mesAddr i (pm₀.subscriptionIn i b)) := by
  have hcall : (dispatcher P).Plays (Stands pm₀ mesAddr free i tmp (.subs b subsTmp))
      (Stands pm₀ mesAddr free i tmp (.subsNext subsTmp))
      (SubscriberRuns mesAddr i (pm₀.subscriptionIn i b)) := by
    refine .step ?_ ?_
    · rintro s d l h ⟨inp, rfl⟩
      cases hcb : (pm₀.subs b).cb with
      | none =>
          obtain ⟨s', hs', hcalls, hexit⟩ := h.step_noSubscriber P hcb inp
          exact ⟨s', [], _, hs', .absent hcb, hcalls.trans (List.append_nil _).symm, hexit⟩
      | some f =>
          obtain ⟨s', hs', hcalls, hexit⟩ := h.step_subscriber P hhandle hcb inp
          exact ⟨s', _, _, hs', .called f hcb inp.world, hcalls, hexit⟩
    · intro s d t r h hr
      cases hr with
      | absent hcb =>
          obtain ⟨s', hs', hcalls, hexit⟩ := h.step_noSubscriber P hcb (.ofWorld default)
          exact ⟨_, s', ⟨_, rfl⟩, hs', hcalls.trans (List.append_nil _).symm, hexit⟩
      | called f hcb world =>
          obtain ⟨s', hs', hcalls, hexit⟩ :=
            h.step_subscriber P hhandle hcb (.ofWorld world)
          exact ⟨_, s', ⟨_, rfl⟩, hs', hcalls, hexit⟩
  have hnext : (dispatcher P).Plays (Stands pm₀ mesAddr free i tmp (.subsNext subsTmp))
      (Stands pm₀ mesAddr free i tmp (subsPc pm₀.subSnode subsTmp)) Skip := by
    refine .silent (dispatcher_mine_default P) ?_
    rintro s d l h ⟨inp, rfl⟩
    exact h.step_subsNext P inp
  exact (hcall.seq hnext).congr (fun _ _ h => h) (fun _ _ h => h) fun _ _ _ _ _ => seq_skip_iff

/-- **The subscribers.** -/
theorem plays_subscribers (hhandle : (pm₀.nodes i).handle = i) {start : Option ℕ}
    {blocks : List ℕ} (hpath : Path pm₀.subSnode start blocks) :
    (dispatcher P).Plays
      (Stands pm₀ mesAddr free i tmp (subsPc pm₀.subSnode start))
      (Stands pm₀ mesAddr free i tmp .relock)
      (Each (SubscriberRuns mesAddr i) (blocks.map (pm₀.subscriptionIn i))) := by
  induction blocks generalizing start with
  | nil =>
      obtain rfl : start = none := hpath
      exact .each_nil
  | cons b blocks ih =>
      obtain ⟨rfl, hrest⟩ := hpath
      exact (plays_subscriber P hhandle b _).each_cons (ih hrest)

/-- **A chain that has been entered**, with its subscribers, up to the next record. -/
theorem plays_body (hhandle : (pm₀.nodes i).handle = i) {blocks rest : List ℕ}
    (hblocks : Path pm₀.subSnode (pm₀.nodes i).subCallbacks.head blocks)
    (hrest : Path pm₀.snode rest.head? rest) (nodes : List (StepNode Ω)) :
    (dispatcher P).Plays (Stands pm₀ mesAddr free i rest.head? (nodesPc 0 nodes))
      (AtRecords pm₀ mesAddr free rest)
      (Seq (ChainRuns mesAddr i 0 nodes)
        (Each (SubscriberRuns mesAddr i) (blocks.map (pm₀.subscriptionIn i)))) := by
  have hfetch : (dispatcher P).Plays (Stands pm₀ mesAddr free i rest.head? .subsHead)
      (Stands pm₀ mesAddr free i rest.head?
        (subsPc pm₀.subSnode (pm₀.nodes i).subCallbacks.head)) Skip := by
    refine .silent (dispatcher_mine_default P) ?_
    rintro s d l h ⟨inp, rfl⟩
    exact h.step_subsHead P inp
  have hrelock : (dispatcher P).Plays (Stands pm₀ mesAddr free i rest.head? .relock)
      (AtRecords pm₀ mesAddr free rest) Skip := by
    refine .silent (dispatcher_mine_default P) ?_
    rintro s d l h ⟨inp, rfl⟩
    exact h.step_relock P hrest inp
  have hsubs : (dispatcher P).Plays (Stands pm₀ mesAddr free i rest.head? .subsHead)
      (AtRecords pm₀ mesAddr free rest)
      (Each (SubscriberRuns mesAddr i) (blocks.map (pm₀.subscriptionIn i))) :=
    (hfetch.seq ((plays_subscribers P hhandle hblocks).seq hrelock)).congr (fun _ _ h => h)
      (fun _ _ h => h) fun _ _ _ _ _ => skip_seq_iff.trans seq_skip_iff
  exact (plays_chain P hhandle 0 nodes).seq hsubs

/-- **A record.** -/
theorem plays_entry {blocks rest : List ℕ} {e : BrokerEntry Ω} (hm : Mirrors pm₀ blocks i e)
    (hhandle : (pm₀.nodes i).handle = i)
    (hblocks : Path pm₀.subSnode (pm₀.nodes i).subCallbacks.head blocks)
    (hrest : Path pm₀.snode rest.head? rest) :
    (dispatcher P).Plays (AtRecords pm₀ mesAddr free (i :: rest))
      (AtRecords pm₀ mesAddr free rest) (EntryRuns P mesAddr e) := by
  have hbody : (dispatcher P).Plays
      (Stands pm₀ mesAddr free i rest.head? (nodesPc 0 (e.chain.head :: e.chain.rest)))
      (AtRecords pm₀ mesAddr free rest)
      (Seq (ChainRuns mesAddr i 0 (e.chain.head :: e.chain.rest))
        (Each (SubscriberRuns mesAddr i) e.subscriptions)) :=
    hm.subscriptions ▸ plays_body P hhandle hblocks hrest (e.chain.head :: e.chain.rest)
  have hrelock : (dispatcher P).Plays (Stands pm₀ mesAddr free i rest.head? .relock)
      (AtRecords pm₀ mesAddr free rest) Skip := by
    refine .silent (dispatcher_mine_default P) ?_
    rintro s d l h ⟨inp, rfl⟩
    exact h.step_relock P hrest inp
  have heh := hm.handle
  constructor
  · -- the step at the loop body is taken in one of four ways, and the rest is played behind it
    intro s d labels h hmine
    obtain ⟨inp, hinp⟩ := hmine 0
    cases hon : e.enabled with
    | false =>
        obtain ⟨s', hs', hcalls, hexit⟩ :=
          Stands.step_disabled P hrest h (hm.enabled.trans hon) inp
        exact ⟨1, s', [], _, Machine.run_labels_one (hinp ▸ hs'), .disabled hon,
          hcalls.trans (List.append_nil _).symm, hexit⟩
    | true =>
        cases hv : lookupVerdict P d.cache e.record d.mes mesAddr d.rc inp with
        | error u =>
            have hs' := Stands.step_invalid P h hm hhandle hon hv
            exact ⟨1, s.crash u, [], _, Machine.run_labels_one (hinp ▸ hs'), .invalid hon inp u hv,
              (List.append_nil _).symm, rfl⟩
        | ok w =>
            obtain ⟨v, cache⟩ := w
            by_cases hzero : v.value = 0
            · obtain ⟨s', hs', hcalls, hexit⟩ :=
                Stands.step_rejected P h hm hhandle hon hv hzero
              obtain ⟨k, s'', t', r, hrun, hr, hended⟩ :=
                hrelock.sound_after hmine (hinp ▸ hs') hcalls hexit
              cases hr
              rw [List.append_nil] at hended
              exact ⟨k, s'', _, _, hrun, .rejected hon inp v cache hv hzero, hended⟩
            · obtain ⟨s', hs', hcalls, hexit⟩ :=
                Stands.step_accepted P h hm hhandle hon hv hzero
              obtain ⟨k, s'', t', r, hrun, hr, hended⟩ :=
                hbody.sound_after hmine (hinp ▸ hs') hcalls hexit
              exact ⟨k, s'', _, r, hrun, .accepted hon inp v cache hv hzero (heh ▸ hr), hended⟩
  · -- each way the broker has for an entry is a way of that step, with the same evaluation
    intro s d t r h hr
    cases hr with
    | disabled hon =>
        obtain ⟨s', hs', hcalls, hexit⟩ :=
          Stands.step_disabled P hrest h (hm.enabled.trans hon) (.ofWorld default)
        exact Machine.Ended.of_step ⟨_, rfl⟩ hs' ⟨hcalls.trans (List.append_nil _).symm, hexit⟩
    | invalid hon inp u hv =>
        have hend : (dispatcher P).Ended s (s.crash u) []
            (AtRecords pm₀ mesAddr free rest) (.error u) := ⟨(List.append_nil _).symm, rfl⟩
        exact hend.of_step ⟨_, rfl⟩ (Stands.step_invalid P h hm hhandle hon hv)
    | rejected hon inp v cache hv hzero =>
        obtain ⟨s', hs', hcalls, hexit⟩ :=
          Stands.step_rejected P h hm hhandle hon hv hzero
        have hrun := hrelock.complete_after ⟨_, rfl⟩ hs' hcalls hexit .skip
        rwa [List.append_nil] at hrun
    | accepted hon inp v cache hv hne hrun =>
        obtain ⟨s', hs', hcalls, hexit⟩ :=
          Stands.step_accepted P h hm hhandle hon hv hne
        exact hbody.complete_after ⟨_, rfl⟩ hs' hcalls hexit (heh ▸ hrun)

/-- **The records that are left.** -/
theorem plays_records {subsOf : ℕ → List ℕ} {rest : List ℕ} {entries : List (BrokerEntry Ω)}
    (hentries : List.Forall₂ (fun i e => Mirrors pm₀ (subsOf i) i e) rest entries)
    (hhandle : ∀ i ∈ rest, (pm₀.nodes i).handle = i)
    (hblocks : ∀ i, Path pm₀.subSnode (pm₀.nodes i).subCallbacks.head (subsOf i))
    (hpath : Path pm₀.snode rest.head? rest) :
    (dispatcher P).Plays (AtRecords pm₀ mesAddr free rest) (AtRecords pm₀ mesAddr free [])
      (Each (EntryRuns P mesAddr) entries) := by
  induction hentries with
  | nil => exact .each_nil
  | @cons i e rest entries hm _ ih =>
      have hnext : Path pm₀.snode rest.head? rest := hpath.2.start_eq ▸ hpath.2
      exact (plays_entry P hm (hhandle i (by simp)) (hblocks i) hnext).each_cons
        (ih (fun j hj => hhandle j (List.mem_cons_of_mem i hj)) hnext)

/-- The thread has just been handed the measurement. -/
def Handed (pm₀ : PmState Ω) (mesAddr : ℕ) (free : Bool) (s : Sys Ω) (d : Delivery) : Prop :=
  ∃ p, Underway pm₀ mesAddr free s p d ∧ p.pc = .lock

/-- The dispatch is over. -/
structure Returned (pm₀ : PmState Ω) (s : Sys Ω) (d : Delivery) : Prop where
  proc : s.proc = none
  fault : s.fault = none
  lock : LockDiscipline s
  registry : pm₀.SameRegistry s.pm
  cache : s.pm.cache = d.cache

/-- **Up to the first record.** -/
theorem plays_begin {l : List ℕ} (hpath : Path pm₀.snode pm₀.pmNodeSlist.head l) :
    (dispatcher P).Plays (Handed pm₀ mesAddr free) (AtRecords pm₀ mesAddr free l) Skip := by
  have hlock : (dispatcher P).Plays (Handed pm₀ mesAddr free)
      (fun s d => ∃ p, Underway pm₀ mesAddr free s p d ∧ p.pc = .head) Skip := by
    refine .silent (dispatcher_mine_default P) ?_
    rintro s d l ⟨p, hp, hpc⟩ ⟨inp, rfl⟩
    have hfree : s.regAccess = .free := hp.lock.unlocked hp.proc (hpc ▸ id)
    have hstep : procStep P s p inp =
        some
          { s with
            regAccess := .held workQueueTid 0
            proc := some { p with pc := .head } } := by
      simp only [procStep, hpc, hfree, KMutex.lock, Option.map_some]
    obtain ⟨hsys, hq⟩ := hp.advance d hstep rfl hp.fault rfl rfl hp.mes hp.rc hp.cache
    exact ⟨_, hsys, rfl, _, hq, rfl⟩
  have hhead : (dispatcher P).Plays
      (fun s d => ∃ p, Underway pm₀ mesAddr free s p d ∧ p.pc = .head)
      (AtRecords pm₀ mesAddr free l) Skip := by
    refine .silent (dispatcher_mine_default P) ?_
    rintro s d _ ⟨p, hp, hpc⟩ ⟨inp, rfl⟩
    have hstep : procStep P s p inp =
        some { s with proc := some (p.goOn s.pm.snode s.pm.pmNodeSlist.head) } := by
      simp only [procStep, hpc]
    obtain ⟨hmesAddr, hfree, hmes, hrc⟩ := goOn_eq p s.pm.snode s.pm.pmNodeSlist.head
    obtain ⟨hsys, hq⟩ := hp.advance d hstep rfl hp.fault hmesAddr hfree
      (hmes.trans hp.mes) (hrc.trans hp.rc) hp.cache
    have hstart : s.pm.pmNodeSlist.head = l.head? := by
      rw [hp.registry.pmNodeSlist, hpath.start_eq]
    exact ⟨_, hsys, rfl,
      atRecords_goOn (hpath.start_eq ▸ hpath) hp.registry.snode hstart hq⟩
  exact (hlock.seq hhead).congr (fun _ _ h => h) (fun _ _ h => h) fun _ _ _ _ _ => seq_skip_iff

/-- **Behind the last record.** -/
theorem plays_end :
    (dispatcher P).Plays (AtRecords pm₀ mesAddr free []) (Returned pm₀)
      (FinishRuns mesAddr free) := by
  have hstep : ∀ s d inp, AtRecords pm₀ mesAddr free [] s d →
      ∃ s', sysStep P s (.proc inp) = some s' ∧
        (dispatcher P).Ended s s' (finishCalls mesAddr free d.rc) (Returned pm₀) (.ok d) := by
    rintro s d inp ⟨p, hp, hpc⟩
    obtain ⟨s', hs'⟩ : ∃ s', procStep P s p inp = some s' := by simp [procStep, hpc]
    have hsys : sysStep P s (.proc inp) = some s' := by
      simpa [sysStep, hp.fault, hp.proc] using hs'
    obtain ⟨hproc, hlog⟩ := procStep_tail hpc hs'
    have hstate : s'.fault = s.fault ∧ s'.pm = s.pm := by
      simp only [procStep, hpc, Option.some_inj] at hs'
      subst hs'
      exact ⟨rfl, rfl⟩
    refine ⟨s', hsys, ?_, hproc, hstate.1.trans hp.fault,
      sysStep_lockDiscipline hp.lock hsys, ?_, ?_⟩
    · simp only [dispatcher, hlog, calls_append, hp.free, hp.mesAddr, hp.rc, finishCalls]
      cases free <;> rfl
    · rw [hstate.2]
      exact hp.registry
    · rw [hstate.2]
      exact hp.cache
  refine .step ?_ ?_
  · rintro s d l h ⟨inp, rfl⟩
    obtain ⟨s', hs', hended⟩ := hstep s d inp h
    exact ⟨s', _, _, hs', ⟨rfl, rfl⟩, hended⟩
  · rintro s d t r h ⟨rfl, rfl⟩
    obtain ⟨s', hs', hended⟩ := hstep s d (.ofWorld default) h
    exact ⟨_, s', ⟨_, rfl⟩, hs', hended⟩

/-- **A dispatch**: the thread, left alone with a measurement, plays the dispatch of every broker
that the statics implement. -/
theorem plays_dispatch {b : Broker Ω} (h : Implements P pm₀ b) :
    (dispatcher P).Plays (Handed pm₀ mesAddr free) (Returned pm₀)
      (DispatchRuns P mesAddr free b.entries) := by
  obtain ⟨regs, l, subsOf, hat⟩ := h
  have hhandle : ∀ i ∈ l, (pm₀.nodes i).handle = i := by
    intro i hi
    have hlt := (hat.registry.mem_iff i).mp hi
    exact (hat.registry.slot i _ (List.getElem?_eq_getElem hlt)).1
  have hpath := hat.registry.holds.path
  have hrecords : (dispatcher P).Plays (AtRecords pm₀ mesAddr free l)
      (AtRecords pm₀ mesAddr free []) (Each (EntryRuns P mesAddr) b.entries) :=
    plays_records P hat.entries hhandle (fun i => (hat.subscribers.holds i).path)
      (hpath.start_eq ▸ hpath)
  have hall := (plays_begin P hpath).seq (hrecords.seq (plays_end P))
  exact hall.congr (fun _ _ h => h) (fun _ _ h => h) fun _ _ _ _ _ => skip_seq_iff

end Plays

end StepPipeline
