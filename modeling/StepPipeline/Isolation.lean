import StepPipeline.BrokerLaws

/-!
# Registrations do not notice each other

What one registration sees of a measurement, when others are served before and behind it.

* `StepNode.ReadOnly` — callbacks that leave the measurement as they found it;
* `entryRuns_carries_alike`, `entryRuns_keeps` — without a filter cache one registration reads
  nothing but the measurement, and with such callbacks it leaves the measurement alone;
* `Sys.Shows` — what can be seen of a system that is given a measurement;
* `othersOff` — every other record is disabled, by calls of `step_pm_disable_node`;
* `dispatch_isolated` — **a dispatch is its registrations put side by side**: what can be seen
  of it is exactly what can be seen of each of them while all others are disabled, one behind
  the other in the order of the list.

Neither hypothesis can be spared: a callback that writes changes what the next one is handed,
and the filter cache hands on verdicts of other measurements.

## What a comparison of runs needs

To say that a registration is not influenced by the others one has to run it without them.  The
interface has a way to do that, `step_pm_disable_node`, so both sides of the theorem are runs of
the system from the same state: on the one side the dispatch, on the other a number of dispatches,
each behind calls that disable all records but one.  The traces are compared as lists; that the
returned code is left out is due to `rc`, which is the one variable that goes from record to
record.

The proof is made at the level of the broker, where a dispatch is `Each` of its registrations, and
comes down from there by `serial_run_served` and `broker_realised`.
-/

namespace StepPipeline

open LabelledRun Behaviour

variable {Ω : Type}

/-- The same measurement, whatever the registrations before have returned. -/
abbrev SameMeasurement : Delivery → Delivery → Prop := Alike fun _ _ _ _ => True

/-! ### Callbacks that only read -/

/-- The callbacks of the node leave the measurement as it is.  What they answer may still depend
on it, and on everything else; it is what they write that the next registration would notice. -/
structure StepNode.ReadOnly (n : StepNode Ω) : Prop where
  evaluate : ∀ f, n.callbacks.evaluateHandler = some f →
    ∀ world mes handle inst, (f.code world mes handle inst).2 = mes
  matched : ∀ f, n.callbacks.matchedHandler = some f →
    ∀ world mes handle inst, (f.code world mes handle inst).2 = mes
  handler : ∀ phase f, n.callbacks.handler phase = some f →
    ∀ world mes handle inst, (f.code world mes handle inst).2 = mes
  error : ∀ f, n.callbacks.errorHandler = some f →
    ∀ world mes handle inst code, (f.code world (some mes) handle inst code).getD mes = mes

/-- …and those of all nodes of a chain. -/
def StepNodeChain.ReadOnly (chain : StepNodeChain Ω) : Prop :=
  ∀ n ∈ chain.head :: chain.rest, n.ReadOnly

/-- The callback of the subscription leaves the measurement as it is. -/
def Subscription.ReadOnly (x : Subscription Ω) : Prop :=
  ∀ f, x.cb = some f → ∀ world mes handle userData, f.code world mes handle userData = mes

/-- Nobody who is told of a measurement under this registration writes to it. -/
structure BrokerEntry.ReadOnly (e : BrokerEntry Ω) : Prop where
  chain : e.chain.ReadOnly
  subscriptions : ∀ x ∈ e.subscriptions, x.ReadOnly

section Levels

variable {P : Platform} {mes : StepMeasurement} (mesAddr handle : ℕ)

/-- A handler that only reads keeps the measurement, and so does the error handler. -/
theorem handlerRuns_keeps {n : StepNode Ω} (hread : n.ReadOnly) (inst : ℕ) (phase : Phase) :
    Keeps (fun d : Delivery => d.mes = mes) (HandlerRuns mesAddr handle n inst phase) := by
  rintro d t y rfl h
  cases h with
  | absent _ => rfl
  | done f hsome world mes' hcode =>
      have hsame := hread.handler phase f hsome world d.mes handle inst
      rwa [hcode] at hsame
  | failed f hsome world code mes' hcode hne hreport =>
      have hsame := hread.handler phase f hsome world d.mes handle inst
      rw [hcode] at hsame
      obtain rfl : mes' = d.mes := hsame
      cases hreport with
      | reported e herror world' => exact hread.error e herror world' d.mes handle inst code

theorem chainRuns_keeps {nodes : List (StepNode Ω)} (hread : ∀ n ∈ nodes, n.ReadOnly)
    (inst : ℕ) :
    Keeps (fun d : Delivery => d.mes = mes) (ChainRuns mesAddr handle inst nodes) := by
  refine Keeps.each fun x hx => ?_
  have hn : x.1.ReadOnly := hread x.1 (List.fst_mem_of_mem_zipIdx hx)
  exact (handlerRuns_keeps mesAddr handle hn x.2 .start).seq
    ((handlerRuns_keeps mesAddr handle hn x.2 .exec).seq
      (handlerRuns_keeps mesAddr handle hn x.2 .stop))

theorem subscribersRun_keeps {l : List (Subscription Ω)} (hread : ∀ x ∈ l, x.ReadOnly) :
    Keeps (fun d : Delivery => d.mes = mes) (Each (SubscriberRuns mesAddr handle) l) := by
  refine Keeps.each fun x hx => ?_
  rintro d t y rfl h
  cases h with
  | absent _ => rfl
  | called f hsome world => exact hread x hx f hsome world d.mes handle x.userData

/-- An evaluation by handlers that only read keeps the measurement. -/
theorem evaluateNode_readOnly {n : StepNode Ω} (hread : n.ReadOnly) {rc : ℤ} {inp : Inputs Ω}
    {v : Verdict} (h : evaluateNode n mes mesAddr handle rc inp = .ok v) : v.mes = mes := by
  obtain ⟨u, hu, rfl⟩ := exists_of_map_eq_ok h
  have humes : u.mes = mes := by
    rw [evaluateFilter] at hu
    split at hu
    · rename_i f hsome
      cases hu
      exact hread.evaluate f hsome inp.world mes handle 0
    · obtain ⟨r, -, rfl⟩ := exists_of_map_eq_ok hu
      rfl
  rw [applyMatched]
  split
  · exact humes
  · rename_i g hsome
    split
    · exact humes
    · exact (hread.matched g hsome inp.world' u.mes handle 0).trans humes

/-- **A registration whose callbacks only read** keeps the measurement. -/
theorem entryRuns_keeps (hoff : P.filterCache = false) {e : BrokerEntry Ω}
    (hread : e.ReadOnly) :
    Keeps (fun d : Delivery => d.mes = mes) (EntryRuns P mesAddr e) := by
  rintro d t y rfl h
  have hlookup : ∀ {inp v cache},
      lookupVerdict P d.cache e.record d.mes mesAddr d.rc inp = .ok (v, cache) →
        v.mes = d.mes := by
    intro inp v cache hv
    simp only [lookupVerdict, hoff, Bool.false_eq_true, if_false] at hv
    obtain ⟨u, hu, hpair⟩ := exists_of_map_eq_ok hv
    obtain ⟨rfl, -⟩ := Prod.mk.inj hpair
    exact evaluateNode_readOnly mesAddr e.handle (hread.chain _ (List.mem_cons_self ..)) hu
  cases h with
  | disabled _ => rfl
  | rejected _ inp v cache hv _ => exact hlookup hv
  | accepted _ inp v cache hv _ hrun =>
      have hbody : Keeps (fun d' : Delivery => d'.mes = d.mes)
          (Seq (ChainRuns mesAddr e.handle 0 (e.chain.head :: e.chain.rest))
            (Each (SubscriberRuns mesAddr e.handle) e.subscriptions)) :=
        (chainRuns_keeps mesAddr e.handle hread.chain 0).seq
          (subscribersRun_keeps mesAddr e.handle hread.subscriptions)
      exact hbody _ _ _ (hlookup hv) hrun

/-- The return code of the registrations before changes nothing but the return code. -/
theorem evaluateNode_rc (n : StepNode Ω) (rc rc' : ℤ) (inp : Inputs Ω) :
    SameEnd (fun v v' => v.value = v'.value ∧ v.mes = v'.mes ∧ v.events = v'.events)
      (evaluateNode n mes mesAddr handle rc inp) (evaluateNode n mes mesAddr handle rc' inp) := by
  have hfilter : SameEnd
      (fun v v' => v.value = v'.value ∧ v.mes = v'.mes ∧ v.events = v'.events)
      (evaluateFilter n mes mesAddr handle rc inp.world)
      (evaluateFilter n mes mesAddr handle rc' inp.world) := by
    unfold evaluateFilter
    split
    · exact .ok ⟨rfl, rfl, rfl⟩
    · cases stepFiltEvaluate (some n.filters) (some mes) with
      | error u => exact .error u
      | ok r => exact .ok ⟨rfl, rfl, rfl⟩
  refine hfilter.map fun v v' ⟨hvalue, hmes, hevents⟩ => ?_
  simp only [applyMatched, hvalue]
  split
  · exact ⟨hvalue, hmes, hevents⟩
  · split
    · exact ⟨hvalue, hmes, hevents⟩
    · simp only [hmes, hevents, and_self]

/-- **Without a filter cache** a registration reads nothing but the measurement. -/
theorem entryRuns_carries_alike (hoff : P.filterCache = false) (e : BrokerEntry Ω) :
    Carries SameMeasurement SameMeasurement (EntryRuns P mesAddr e) := by
  rintro ⟨mes, rc, cache⟩ ⟨_, rc', cache'⟩ t r ⟨rfl, -⟩ h
  have hlookup : ∀ inp, SameEnd
      (fun x x' => x.1.value = x'.1.value ∧ x.1.mes = x'.1.mes ∧ x.1.events = x'.1.events)
      (lookupVerdict P cache e.record mes mesAddr rc inp)
      (lookupVerdict P cache' e.record mes mesAddr rc' inp) := by
    intro inp
    simp only [lookupVerdict, hoff, Bool.false_eq_true, if_false]
    exact (evaluateNode_rc mesAddr e.handle e.chain.head rc rc' inp).map fun _ _ h => h
  cases h with
  | disabled hdisabled => exact ⟨_, .disabled hdisabled, .ok ⟨rfl, trivial⟩⟩
  | invalid hon inp u hv =>
      have hsame := (hv ▸ hlookup inp).of_error
      exact ⟨_, .invalid hon inp u hsame, .error u⟩
  | rejected hon inp v after hv hzero =>
      obtain ⟨⟨v', after'⟩, hv', hvalue, hmes, hevents⟩ := (hv ▸ hlookup inp).of_ok
      refine ⟨.ok ⟨v'.mes, v'.rc, after'⟩, ?_, .ok ⟨hmes, trivial⟩⟩
      rw [show v.events = v'.events from hevents]
      exact .rejected hon inp v' after' hv' (hvalue ▸ hzero)
  | accepted hon inp v after hv hne hrun =>
      obtain ⟨⟨v', after'⟩, hv', hvalue, hmes, hevents⟩ := (hv ▸ hlookup inp).of_ok
      have hbody : Carries SameMeasurement SameMeasurement
          (Seq (ChainRuns mesAddr e.handle 0 (e.chain.head :: e.chain.rest))
            (Each (SubscriberRuns mesAddr e.handle) e.subscriptions)) :=
        (chainRuns_carries mesAddr e.handle 0 _).seq
          (subscribersRun_carries mesAddr e.handle e.subscriptions)
      obtain ⟨r', hrun', hend⟩ := hbody ⟨v.mes, v.rc, after⟩ ⟨v'.mes, v'.rc, after'⟩ _ _
        ⟨hmes, trivial⟩ hrun
      refine ⟨r', ?_, hend⟩
      rw [show v.events = v'.events from hevents]
      exact .accepted hon inp v' after' hv' (hvalue ▸ hne) hrun'

end Levels

/-! ### One registration and the others -/

section Broker

variable {P : Platform} {mesAddr : ℕ} {b : Broker Ω}

/-- The broker with all registrations disabled that have one of these handles. -/
def Broker.without (b : Broker Ω) (handles : List ℕ) : Broker Ω :=
  { b with entries := b.entries.map fun e =>
      if e.handle ∈ handles then { e with enabled := false } else e }

/-- A disabled registration does nothing. -/
theorem entryRuns_disabled_iff {e : BrokerEntry Ω} (hoff : e.enabled = false) {d : Delivery}
    {t : List Call} {r : Except UndefinedBehaviour Delivery} :
    EntryRuns P mesAddr e d t r ↔ Skip d t r := by
  constructor
  · intro h
    cases h with
    | disabled _ => exact .skip
    | invalid hon | rejected hon | accepted hon => simp [hoff] at hon
  · rintro ⟨⟩
    exact .disabled hoff

/-- **With all others disabled**, what happens is what happens at the one registration. -/
theorem each_without_iff {e : BrokerEntry Ω} (he : e ∈ b.entries)
    (hnodup : (b.entries.map BrokerEntry.handle).Nodup) {handles : List ℕ}
    (hothers : ∀ e' ∈ b.entries, e'.handle ∈ handles ↔ e'.handle ≠ e.handle) {d : Delivery}
    {t : List Call} {r : Except UndefinedBehaviour Delivery} :
    Each (EntryRuns P mesAddr) (b.without handles).entries d t r ↔
      EntryRuns P mesAddr e d t r := by
  have hsame : (if e.handle ∈ handles then { e with enabled := false } else e) = e :=
    if_neg fun hmem => (hothers e he).mp hmem rfl
  have honly := each_only_iff
    (R := fun e' : BrokerEntry Ω =>
      EntryRuns P mesAddr (if e'.handle ∈ handles then { e' with enabled := false } else e'))
    (x := d) (t := t) (r := r) he hnodup.of_map fun e' he' hne => ?_
  · rw [Broker.without, each_map_iff, honly, hsame]
  · have hhandle : e'.handle ≠ e.handle := fun heq =>
      hne (List.inj_on_of_nodup_map hnodup he' he heq)
    rw [if_pos ((hothers e' he').mpr hhandle)]
    ext d t r
    exact entryRuns_disabled_iff rfl

/-- **Registrations side by side.** -/
theorem each_entries_iff (hoff : P.filterCache = false) (hread : ∀ e ∈ b.entries, e.ReadOnly)
    {d : Delivery} {t : List Call} :
    (∃ d', Each (EntryRuns P mesAddr) b.entries d t (.ok d')) ↔
      ∃ ts : List (List Call), t = ts.flatten ∧
        List.Forall₂ (fun e t => ∃ d', EntryRuns P mesAddr e d t (.ok d')) b.entries ts := by
  have hcarries : ∀ e ∈ b.entries,
      Carries SameMeasurement SameMeasurement (EntryRuns P mesAddr e) :=
    fun e _ => entryRuns_carries_alike mesAddr hoff e
  have hkeeps : ∀ e ∈ b.entries, ∀ d t d', EntryRuns P mesAddr e d t (.ok d') →
      SameMeasurement d d' :=
    fun e he d t d' h => ⟨(entryRuns_keeps mesAddr hoff (hread e he) d t d' rfl h).symm, trivial⟩
  exact each_independent_iff (fun x y h => ⟨h.1.symm, trivial⟩) hcarries hkeeps

/-- Handles are disabled one by one. -/
theorem Broker.without_cons (b : Broker Ω) (handle : ℕ) (handles : List ℕ) :
    (b.alter handle fun e => { e with enabled := false }).without handles =
      b.without (handle :: handles) := by
  simp only [Broker.without, Broker.alter, List.map_map, Broker.mk.injEq, and_true]
  refine List.map_congr_left fun e _ => ?_
  by_cases heq : e.handle = handle
  · simp [heq]
  · simp [heq]

end Broker

/-! ### What can be seen of a system -/

section System

variable {P : Platform} {s s' : Sys Ω} {b : Broker Ω}

/-- **What can be seen** of a system that is asked for one thing and left alone with it, if it
comes through.  The surroundings of the callbacks are not fixed, so this is a set of traces. -/
def Sys.Shows (P : Platform) (s : Sys Ω) (request : Request Ω) (t : List Call) : Prop :=
  ∃ ls s', run (sysStep P) s ls = some s' ∧ Meets (sysStep P) Serial s ls ∧
    ls.filterMap Label.request = [request] ∧ trace (sysStep P) (observe P) s ls = t ∧
    s'.proc = none ∧ s'.fault = none

/-- Thread 1 disables these handles. -/
def disableAll (handles : List ℕ) : List (Label Ω) :=
  handles.map fun handle => .other 1 (.disable handle)

/-- Every record but one is disabled. -/
def othersOff (pm : PmState Ω) (handle : ℕ) : List (Label Ω) :=
  disableAll ((List.range pm.handleCounter).erase handle)

/-- All callbacks of the registry leave the measurement as it is: those of the registered
chains, and those of the blocks attached to registrations in force. -/
structure PmState.ReadOnly (pm : PmState Ω) : Prop where
  node : ∀ i < pm.handleCounter, ∀ chain, (pm.nodes i).node = some chain → chain.ReadOnly
  subs : ∀ i < pm.handleCounter, ∀ x ∈ pm.subAllocated,
    (pm.subs x).subscribedTo = pm.registrationAt i → (pm.subscriptionIn i x).ReadOnly

theorem ImplementsAt.readOnly {pm : PmState Ω} {regs : List (StepNodeChain Ω × ℕ)} {l : List ℕ}
    {subsOf : ℕ → List ℕ} (h : ImplementsAt P pm b regs l subsOf) (hread : pm.ReadOnly) :
    ∀ e ∈ b.entries, e.ReadOnly := by
  intro e he
  obtain ⟨n, hn, rfl⟩ := List.getElem_of_mem he
  have hn' : n < l.length := h.entries.length_eq ▸ hn
  have hm := h.entries.get hn' hn
  rw [List.get_eq_getElem, List.get_eq_getElem] at hm
  generalize b.entries[n] = e at hm
  generalize hi : l[n] = i at hm
  have hlt : i < pm.handleCounter := by
    rw [h.registry.counter_eq]
    exact (h.registry.mem_iff i).mp (hi ▸ List.getElem_mem hn')
  refine ⟨hread.node i hlt e.chain hm.node, fun x hx => ?_⟩
  rw [← hm.subscriptions] at hx
  obtain ⟨block, hblock, rfl⟩ := List.mem_map.mp hx
  exact hread.subs i hlt block (h.subscribers.allocated i block hblock)
    (h.subscribers.attached i block hblock)

/-- **Calls of `step_pm_disable_node`** for handles that have been given out. -/
theorem Quiet.disableAll (h : Quiet P s b) {handles : List ℕ}
    (hlt : ∀ i ∈ handles, i < b.entries.length) :
    ∃ s', run (sysStep P) s (StepPipeline.disableAll handles) = some s' ∧
      Quiet P s' (b.without handles) := by
  induction handles generalizing s b with
  | nil => exact ⟨s, rfl, by simpa [Broker.without] using h⟩
  | cons i handles ih =>
      have hi := hlt i (List.mem_cons_self ..)
      have hlimit : ¬P.nodeLimit ≤ i := by
        obtain ⟨regs, l, subsOf, hat⟩ := h.implements
        have hle := hat.registry.counter_le
        rw [← hat.length_eq] at hle
        omega
      have hstep : sysStep P s (.other 1 (.disable i)) =
          some (s.afterCall (apiCall P s.pm (.disable i))) := by
        simp [sysStep, h.fault, ApiCall.locks, ApiCall.heapOk, workQueueTid]
      obtain ⟨r, hr, hsettled⟩ := h.call hstep
      obtain rfl : r = .ok (b.alter i fun e => { e with enabled := false }) := by
        have hanswer : b.answer P (ApiCall.disable i).request = ([.answered 0 none],
            .ok (b.alter i fun e => { e with enabled := false })) := by
          simp only [Broker.answer, ApiCall.request, Broker.answerHandle, if_neg hi.not_gt,
            if_neg hlimit]
        exact (Prod.mk.inj (hr.symm.trans hanswer)).2
      obtain ⟨s', hrun, hquiet⟩ := ih hsettled fun j hj => by
        simpa [Broker.alter] using hlt j (List.mem_cons_of_mem i hj)
      refine ⟨s', ?_, b.without_cons i handles ▸ hquiet⟩
      rw [StepPipeline.disableAll, List.map_cons, run_cons, hstep]
      exact hrun

variable [Inhabited Ω]

/-- Of a quiet system can be seen what the broker does. -/
theorem Quiet.shows_iff (h : Quiet P s b) {request : Request Ω} {t : List Call} :
    s.Shows P request t ↔ ∃ b', Broker.Serves P request b t (.ok b') := by
  constructor
  · rintro ⟨ls, s', hrun, hserial, hrequest, rfl, hproc, hfault⟩
    obtain ⟨r, heach, hsettled⟩ := h.serves hrun hserial (Or.inl hproc)
    rw [hrequest, each_cons_iff] at heach
    have hnil : Each (Broker.Serves P) ([] : List (Request Ω)) = Skip := by
      ext b t r
      exact each_skip_iff (by simp)
    rw [hnil, seq_skip_iff] at heach
    cases r with
    | ok b' => exact ⟨b', heach⟩
    | error u => simp [show s'.fault = some u from hsettled] at hfault
  · rintro ⟨b', hserves⟩
    obtain ⟨ls, s', hrun, hserial, hrequest, htrace, hsettled⟩ := h.realises_one hserves
    exact ⟨ls, s', hrun, hserial, hrequest, htrace, hsettled.proc, hsettled.fault⟩

/-- …and of a dispatch, what happens at the registrations. -/
theorem Quiet.shows_dispatch_iff (h : Quiet P s b) (mesAddr : ℕ) (mes : StepMeasurement)
    (free : Bool) (t : List Call) :
    (∃ rc, s.Shows P (.process mesAddr mes free) (t ++ finishCalls mesAddr free rc)) ↔
      ∃ d, Each (EntryRuns P mesAddr) b.entries ⟨mes, 0, b.cache⟩ t (.ok d) := by
  constructor
  · rintro ⟨rc, hshows⟩
    obtain ⟨b', out, hruns, hout⟩ := h.shows_iff.mp hshows
    obtain ⟨d, rfl⟩ : ∃ d, out = .ok d := by
      cases out with
      | ok d => exact ⟨d, rfl⟩
      | error u => cases hout
    generalize hcalls : t ++ finishCalls mesAddr free rc = seen at hruns
    cases hruns with
    | @go _ d' t' _ _ heach hfinish =>
        obtain ⟨rfl, -⟩ := hfinish
        obtain ⟨rfl, -⟩ := List.append_inj' hcalls (by simp [finishCalls])
        exact ⟨d', heach⟩
  · rintro ⟨d, heach⟩
    exact ⟨d.rc, h.shows_iff.mpr ⟨_, .ok d, .go heach ⟨rfl, rfl⟩, rfl⟩⟩

/-- **A dispatch is its registrations put side by side.**  In every state that any interleaving
can reach with nothing in flight, without a filter cache and with callbacks that only read: what
can be seen of a dispatch, short of what it returns, is exactly what can be seen of the same
dispatch at each of the records while all others are disabled, one behind the other in the order
of the list. -/
theorem dispatch_isolated {ls : List (Label Ω)} (hoff : P.filterCache = false)
    (hrun : run (sysStep P) (Sys.init P) ls = some s) (hproc : s.proc = none)
    (hfault : s.fault = none) (hread : s.pm.ReadOnly) (mesAddr : ℕ) (mes : StepMeasurement)
    (free : Bool) (t : List Call) :
    (∃ rc, s.Shows P (.process mesAddr mes free) (t ++ finishCalls mesAddr free rc)) ↔
      ∃ ts : List (List Call), t = ts.flatten ∧
        List.Forall₂ (fun handle t => ∃ s', run (sysStep P) s (othersOff s.pm handle) = some s' ∧
          ∃ rc, s'.Shows P (.process mesAddr mes free) (t ++ finishCalls mesAddr free rc))
          (s.pm.listed P) ts := by
  obtain ⟨b, hb⟩ := (run_serviceable hrun).quiet hproc hfault
  obtain ⟨regs, l, subsOf, hat⟩ := hb.implements
  have hhandles : s.pm.listed P = b.entries.map BrokerEntry.handle := by
    rw [hat.registry.listed_eq, ← List.forall₂_eq_eq_eq, List.forall₂_map_right_iff]
    exact hat.entries.imp fun i e hm => hm.handle.symm
  have hnodup : (b.entries.map BrokerEntry.handle).Nodup := by
    rw [← hhandles, hat.registry.listed_eq]
    exact hat.registry.holds.nodup
  -- with the others disabled, the dispatch is that of the one registration
  have halone : ∀ e ∈ b.entries, ∀ t,
      (∃ d, EntryRuns P mesAddr e ⟨mes, 0, b.cache⟩ t (.ok d)) ↔
        ∃ s', run (sysStep P) s (othersOff s.pm e.handle) = some s' ∧
          ∃ rc, s'.Shows P (.process mesAddr mes free) (t ++ finishCalls mesAddr free rc) := by
    intro e he t
    have hmem : ∀ i, i ∈ (List.range s.pm.handleCounter).erase e.handle ↔
        i ≠ e.handle ∧ i < s.pm.handleCounter := by
      intro i
      rw [List.nodup_range.mem_erase_iff, List.mem_range]
    obtain ⟨s', hs', hquiet⟩ := hb.disableAll fun i hi => hat.length_eq ▸ ((hmem i).mp hi).2
    have hothers : ∀ e' ∈ b.entries,
        e'.handle ∈ (List.range s.pm.handleCounter).erase e.handle ↔ e'.handle ≠ e.handle := by
      intro e' he'
      have hlt : e'.handle < s.pm.handleCounter := by
        rw [← hat.registry.mem_listed_iff, hhandles]
        exact List.mem_map_of_mem he'
      rw [hmem]
      exact and_iff_left hlt
    have hsolo := hquiet.shows_dispatch_iff mesAddr mes free t
    simp only [each_without_iff he hnodup hothers] at hsolo
    constructor
    · intro h
      exact ⟨s', hs', hsolo.mpr h⟩
    · rintro ⟨s'', hs'', h⟩
      obtain rfl := Option.some.inj (hs'.symm.trans hs'')
      exact hsolo.mp h
  rw [hb.shows_dispatch_iff, each_entries_iff hoff (hat.readOnly hread), hhandles]
  simp only [List.forall₂_map_left_iff]
  refine exists_congr fun ts => and_congr_right fun _ => ?_
  have hmem := fun {R : BrokerEntry Ω → List Call → Prop} (h : List.Forall₂ R b.entries ts) =>
    (List.forall₂_and_left b.entries ts).mpr ⟨fun e he => he, h⟩
  exact ⟨fun h => (hmem h).imp fun e t ⟨he, h⟩ => (halone e he t).mp h,
    fun h => (hmem h).imp fun e t ⟨he, h⟩ => (halone e he t).mpr h⟩

/-- Two chains are registered. -/
def registeredTwice : List (Label Unit) :=
  [.other 1 (.register workingChain 2 fun _ => ()), .other 1 (.register workingChain 1 fun _ => ())]

/-- One measurement is dispatched to two records of which one is disabled. -/
def dispatchedToOne : List (Label Unit) :=
  .process 64 ⟨⟨0#32, 0#32, 0#32⟩, []⟩ false :: List.replicate 10 (.proc ⟨(), (), 1, 0#32⟩)

theorem workingChain_readOnly : workingChain.ReadOnly := by
  rintro n hn
  obtain rfl := List.mem_singleton.mp hn
  refine ⟨?_, ?_, fun phase f hf => ?_, ?_⟩
  · rintro f ⟨⟩
  · rintro f ⟨⟩
  · cases phase with
    | exec =>
        cases hf
        exact fun _ _ _ _ => rfl
    | start | stop => cases hf
  · rintro f ⟨⟩

/-- The handlers of both are called, since each is if the other record is disabled. -/
theorem dispatch_isolated_two :
    ∃ s rc, run (sysStep Platform.tests) (Sys.init Platform.tests) registeredTwice = some s ∧
      s.Shows Platform.tests (.process 64 ⟨⟨0#32, 0#32, 0#32⟩, []⟩ false)
        ([.handler .exec 100 64 0 0 0, .handler .exec 100 64 1 0 0] ++
          finishCalls 64 false rc) := by
  obtain ⟨s, hrun, hproc, hfault, hlisted, hread, hfirst, hsecond⟩ : ∃ s : Sys Unit,
      run (sysStep Platform.tests) (Sys.init Platform.tests) registeredTwice = some s ∧
        s.proc = none ∧ s.fault = none ∧ s.pm.listed Platform.tests = [0, 1] ∧ s.pm.ReadOnly ∧
        (∃ s', run (sysStep Platform.tests) s (othersOff s.pm 0) = some s' ∧
          s'.Shows Platform.tests (.process 64 ⟨⟨0#32, 0#32, 0#32⟩, []⟩ false)
            ([.handler .exec 100 64 0 0 0] ++ finishCalls 64 false 0)) ∧
        ∃ s', run (sysStep Platform.tests) s (othersOff s.pm 1) = some s' ∧
          s'.Shows Platform.tests (.process 64 ⟨⟨0#32, 0#32, 0#32⟩, []⟩ false)
            ([.handler .exec 100 64 1 0 0] ++ finishCalls 64 false 0) := by
    refine ⟨_, rfl, rfl, rfl, by decide, ⟨?_, ?_⟩,
      ⟨_, rfl, dispatchedToOne, _, rfl, by decide, rfl, by decide, rfl, rfl⟩,
      ⟨_, rfl, dispatchedToOne, _, rfl, by decide, rfl, by decide, rfl, rfl⟩⟩
    · intro i hi chain hchain
      have hworking : chain = workingChain := by
        match i, hi with
        | 0, _ | 1, _ => exact (Option.some.inj hchain).symm
      exact hworking ▸ workingChain_readOnly
    · rintro i hi x ⟨⟩
  obtain ⟨s₀, hs₀, h₀⟩ := hfirst
  obtain ⟨s₁, hs₁, h₁⟩ := hsecond
  obtain ⟨rc, hshows⟩ := (dispatch_isolated rfl hrun hproc hfault hread 64
    ⟨⟨0#32, 0#32, 0#32⟩, []⟩ false
    [.handler .exec 100 64 0 0 0, .handler .exec 100 64 1 0 0]).mpr
      ⟨[[.handler .exec 100 64 0 0 0], [.handler .exec 100 64 1 0 0]], rfl, by
        rw [hlisted]
        exact .cons ⟨s₀, hs₀, 0, h₀⟩ (.cons ⟨s₁, hs₁, 0, h₁⟩ .nil)⟩
  exact ⟨s, rc, hrun, hshows⟩

end System

end StepPipeline
