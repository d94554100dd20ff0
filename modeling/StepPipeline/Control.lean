import StepPipeline.BrokerRuns
import StepPipeline.CallbackIdentity

/-!
# What calls and dispatches do to each other

The calls of the registry interface and the dispatches of measurements share their statics,
and only some of the calls wait for the lock.  Two results on who can notice whom, over every
interleaving:

* `calls_undisturbed` — **no call notices the dispatches**: with everything else left out, the
  same calls are answered alike, and leave the same registry behind;
* `disabled_stays_silent` — **`step_pm_disable_node` takes effect**: once no dispatch is inside
  the chain, no dispatch calls a callback with the handle of a disabled record.

The second one needs that the chain in flight was matched since the last `step_pm_clear`: the
callbacks of one that was not are called with the handle of a wiped record, which is 0.

## What one step stands for

A call of the interface is one step.  For the calls that lock the registry this is what the
lock is for: nobody else who takes it can look in between.  `step_pm_enable_node` and
`step_pm_disable_node` do not take it, and write one flag.  Between two of their like, and
with a dispatch, that makes no difference; with a registration it does, because the record is
enabled and its handle known before the `init_handler`s are called, and a disable may come in
between two of them.  So nothing is said here about the callbacks of a registration, and a
record counts as registered when `step_pm_register` has returned.
-/

namespace StepPipeline

open IntrusiveList LabelledRun

variable {Ω : Type}

/-! ### Calls and the registry -/

/-- A call of another thread. -/
def Label.isCall : Label Ω → Bool
  | .other _ _ => true
  | .process _ _ _ | .proc _ => false

/-- What the calls are answered. -/
def answers (P : Platform) (s : Sys Ω) : Label Ω → List Call
  | .other _ c => (apiCall P s.pm c).calls
  | .process _ _ _ | .proc _ => []

/-- A record without the instrumentation… -/
def StepPmNodeRecord.bare (r : StepPmNodeRecord Ω) : StepPmNodeRecord Ω :=
  { r with runtimeNs := 0#32, runs := 0#32 }

/-- …and the statics without instrumentation and cache. -/
def PmState.bare (P : Platform) (pm : PmState Ω) : PmState Ω :=
  { pm with nodes := fun i => (pm.nodes i).bare, cache := .init P }

section Undisturbed

variable {P : Platform} {s s' t : Sys Ω} {pm pm' : PmState Ω}

theorem sameRegistry_iff_bare : pm.SameRegistry pm' ↔ pm'.bare P = pm.bare P := by
  constructor
  · intro h
    have hnodes : (fun i => (pm'.nodes i).bare) = fun i => (pm.nodes i).bare := by
      funext i
      simp only [StepPmNodeRecord.bare, h.handle, h.node, h.priority, h.enabled, h.subCallbacks]
    simp only [PmState.bare, hnodes, h.handleCounter, h.pmNodeSlist, h.snode, h.subs, h.subSnode,
      h.subAllocated, h.epoch]
  · intro h
    have hnode : ∀ i, (pm'.nodes i).bare = (pm.nodes i).bare :=
      congrFun (congrArg PmState.nodes h)
    exact
      { handleCounter := (congrArg PmState.handleCounter h :)
        pmNodeSlist := (congrArg PmState.pmNodeSlist h :)
        snode := (congrArg PmState.snode h :)
        subs := (congrArg PmState.subs h :)
        subSnode := (congrArg PmState.subSnode h :)
        subAllocated := (congrArg PmState.subAllocated h :)
        epoch := (congrArg PmState.epoch h :)
        handle := fun i => (congrArg StepPmNodeRecord.handle (hnode i) :)
        node := fun i => (congrArg StepPmNodeRecord.node (hnode i) :)
        priority := fun i => (congrArg StepPmNodeRecord.priority (hnode i) :)
        enabled := fun i => (congrArg StepPmNodeRecord.enabled (hnode i) :)
        subCallbacks := fun i => (congrArg StepPmNodeRecord.subCallbacks (hnode i) :) }

/-- Writing a record. -/
theorem bare_update (nodes : ℕ → StepPmNodeRecord Ω) (i : ℕ) (r r' : StepPmNodeRecord Ω)
    (h : r'.bare = r.bare) :
    (fun j => (Function.update (fun j => (nodes j).bare) i r' j).bare) =
      fun j => (Function.update nodes i r j).bare := by
  funext j
  by_cases hj : j = i
  · subst hj
    rw [Function.update_self, Function.update_self, h]
  · rw [Function.update_of_ne hj, Function.update_of_ne hj]
    rfl

theorem addRecord_bare (pm : PmState Ω) (node : StepNodeChain Ω) (pri : ℕ) :
    ((pm.bare P).addRecord P node pri).bare P = (pm.addRecord P node pri).bare P := by
  have hfill : ((pm.bare P).fillRecord node pri).bare P = (pm.fillRecord node pri).bare P :=
    congrArg (fun nodes => { pm.fillRecord node pri with nodes := nodes, cache := .init P })
      (bare_update pm.nodes pm.handleCounter _ _ rfl)
  have hlink : linkRecord P ((pm.bare P).fillRecord node pri) pri pm.handleCounter =
      linkRecord P (pm.fillRecord node pri) pri pm.handleCounter :=
    (congrArg (fun s => linkRecord P s pri pm.handleCounter) hfill :)
  exact congrArg₂ (fun (filled : PmState Ω) (linked : Links ℕ × Header ℕ) =>
    { filled with snode := linked.1, pmNodeSlist := linked.2 }) hfill hlink

/-- An outcome without instrumentation and cache. -/
def Outcome.bare (P : Platform) (o : Outcome Ω) : Outcome Ω :=
  { o with pm := o.pm.bare P }

/-- **A call reads neither the instrumentation nor the cache.** `step_pm_clear` writes both; that
is why they are taken out of the result as well. -/
theorem apiCall_bare (P : Platform) (pm : PmState Ω) (c : ApiCall Ω) :
    (apiCall P (pm.bare P) c).bare P = (apiCall P pm c).bare P := by
  have hset : ∀ on handle, (stepPmSetEnabled P (pm.bare P) on handle).bare P =
      (stepPmSetEnabled P pm on handle).bare P := by
    intro on handle
    have hwritten := bare_update pm.nodes handle { pm.nodes handle with enabled := on }
      { (pm.nodes handle).bare with enabled := on } rfl
    simp only [stepPmSetEnabled, apply_ite (Outcome.bare P)]
    refine ite_congr rfl (fun _ => rfl) fun _ => ite_congr rfl (fun _ => rfl) fun _ => ?_
    exact congrArg (fun nodes => Outcome.ret { pm with nodes := nodes, cache := .init P } 0)
      hwritten
  cases c with
  | register node pri world =>
      simp only [apiCall, stepPmRegister, apply_ite (Outcome.bare P)]
      refine ite_congr rfl (fun _ => rfl) fun _ => ite_congr rfl (fun _ => rfl) fun _ => ?_
      -- what the init handlers answer is an input of the call, the same on both sides
      let init := initLoop pm.handleCounter world 0 (node.head :: node.rest) 0 []
      exact congrArg (fun pm' : PmState Ω => (⟨pm', init.rc, some pm.handleCounter, init.events,
        init.fault⟩ : Outcome Ω)) (addRecord_bare pm node pri)
  | clear =>
      have hwiped : (fun i => (if i < P.nodeLimit then StepPmNodeRecord.zero
          else (pm.nodes i).bare).bare) =
          fun i => (if i < P.nodeLimit then StepPmNodeRecord.zero else pm.nodes i).bare := by
        funext i
        split <;> rfl
      exact congrArg (fun nodes => Outcome.ret
        { (stepPmClear P pm).pm with nodes := nodes, cache := .init P } 0) hwiped
  | enable handle => exact hset true handle
  | disable handle => exact hset false handle
  | subscribe handle cb userData block =>
      simp only [apiCall, stepPmSubscribeToNode, apply_ite (Outcome.bare P)]
      refine ite_congr rfl (fun _ => rfl) fun _ => ?_
      cases block with
      | none => rfl
      | some nc =>
          simp only [apply_ite (Outcome.bare P)]
          refine ite_congr rfl (fun _ => rfl) fun _ => ?_
          let appended := P.slist.append pm.subSnode (pm.nodes handle).subCallbacks nc
          have hwritten := bare_update pm.nodes handle
            { pm.nodes handle with subCallbacks := appended.2 }
            { (pm.nodes handle).bare with subCallbacks := appended.2 } rfl
          exact congrArg (fun nodes => Outcome.ret
            { pm with
              subs := Function.update pm.subs nc ⟨cb, userData, pm.registrationAt handle⟩
              subSnode := appended.1
              subAllocated := nc :: pm.subAllocated
              nodes := nodes
              cache := .init P } 0) hwritten

/-- What a call is answered. -/
theorem apiCall_calls (h : pm'.bare P = pm.bare P) (c : ApiCall Ω) :
    (apiCall P pm' c).calls = (apiCall P pm c).calls ∧
      (apiCall P pm' c).pm.bare P = (apiCall P pm c).pm.bare P ∧
      (apiCall P pm' c).fault = (apiCall P pm c).fault := by
  have hsame : (apiCall P pm' c).bare P = (apiCall P pm c).bare P := by
    rw [← apiCall_bare, h, apiCall_bare]
  exact ⟨(congrArg Outcome.calls hsame :), (congrArg Outcome.pm hsame :),
    (congrArg Outcome.fault hsame :)⟩

/-- `s'` has gone through the same calls as `s`, and through nothing else.  It is the simulation
relation of the section: the registry is the same short of what dispatches write, and nobody else
holds its mutex. -/
structure CallsOnly (P : Platform) (s s' : Sys Ω) : Prop where
  pm : s'.pm.bare P = s.pm.bare P
  proc : s'.proc = none
  free : s'.regAccess = .free
  fault : s.fault = none → s'.fault = none

/-- A call is made there too. -/
theorem CallsOnly.call (h : CallsOnly P s s') {tid : Tid} {c : ApiCall Ω}
    (hstep : sysStep P s (.other tid c) = some t) :
    ∃ t', sysStep P s' (.other tid c) = some t' ∧ CallsOnly P t t' ∧
      answers P s' (.other tid c) = answers P s (.other tid c) := by
  obtain ⟨hfault, hmove⟩ := sysStep_move hstep
  cases hmove with
  | other _ _ htid _ hheap =>
      obtain ⟨hcalls, hpm, hfault'⟩ := apiCall_calls h.pm c
      have hheap' : c.heapOk s'.pm = true := by
        have hallocated : s'.pm.subAllocated = s.pm.subAllocated :=
          (congrArg PmState.subAllocated h.pm :)
        cases c with
        | subscribe handle cb userData block =>
            cases block with
            | none => rfl
            | some nc => rwa [ApiCall.heapOk, hallocated]
        | _ => rfl
      refine ⟨s'.afterCall (apiCall P s'.pm c), ?_, ⟨hpm, h.proc, h.free, fun hnone => ?_⟩, hcalls⟩
      · simp [sysStep, h.fault hfault, htid, h.free, hheap', KMutex.lock]
      · exact hfault'.trans hnone

/-- Everything else is not noticed. -/
theorem CallsOnly.other (h : CallsOnly P s s') {l : Label Ω} (hl : l.isCall = false)
    (hstep : sysStep P s l = some t) : CallsOnly P t s' ∧ answers P s l = [] := by
  obtain ⟨hfault, hmove⟩ := sysStep_move hstep
  have hnone := h.fault hfault
  cases hmove with
  | process _ _ _ _ => exact ⟨⟨h.pm, h.proc, h.free, fun _ => hnone⟩, rfl⟩
  | proc _ hmove =>
      have hpm := (sameRegistry_iff_bare (P := P)).mp hmove.sameRegistry
      exact ⟨⟨h.pm.trans hpm.symm, h.proc, h.free, fun _ => hnone⟩, rfl⟩
  | other _ _ _ _ _ => cases hl

/-- **No call notices the dispatches.**  Of every interleaving the calls alone, with everything
else left out, are a run too: they are answered alike, and leave the same registry behind. -/
theorem calls_undisturbed {ls : List (Label Ω)}
    (hrun : run (sysStep P) (Sys.init P) ls = some s) :
    ∃ s', run (sysStep P) (Sys.init P) (ls.filter Label.isCall) = some s' ∧
      trace (sysStep P) (answers P) (Sys.init P) (ls.filter Label.isCall) =
        trace (sysStep P) (answers P) (Sys.init P) ls ∧
      s.pm.SameRegistry s'.pm ∧ (s.fault = none → s'.fault = none) := by
  have hall : ∀ {ls : List (Label Ω)} {s₀ s₀' : Sys Ω}, CallsOnly P s₀ s₀' →
      run (sysStep P) s₀ ls = some s →
        ∃ s', run (sysStep P) s₀' (ls.filter Label.isCall) = some s' ∧
          trace (sysStep P) (answers P) s₀' (ls.filter Label.isCall) =
            trace (sysStep P) (answers P) s₀ ls ∧ CallsOnly P s s' := by
    intro ls
    induction ls with
    | nil =>
        intro s₀ s₀' h hrun
        cases hrun
        exact ⟨s₀', rfl, rfl, h⟩
    | cons l ls ih =>
        intro s₀ s₀' h hrun
        obtain ⟨s₁, hs₁, hrun'⟩ := (run_cons_eq_some _).mp hrun
        cases hl : l.isCall with
        | false =>
            obtain ⟨h₁, hnone⟩ := h.other hl hs₁
            obtain ⟨s', hs', htrace, hend⟩ := ih h₁ hrun'
            rw [List.filter_cons_of_neg (by simp [hl]), trace_cons hs₁, hnone]
            exact ⟨s', hs', htrace, hend⟩
        | true =>
            cases l with
            | process | proc => cases hl
            | other tid c =>
                obtain ⟨s₁', hs₁', h₁, hanswer⟩ := h.call hs₁
                obtain ⟨s', hs', htrace, hend⟩ := ih h₁ hrun'
                rw [List.filter_cons_of_pos hl, trace_cons hs₁, trace_cons hs₁', hanswer, htrace,
                  run_cons, hs₁']
                exact ⟨s', hs', rfl, hend⟩
  obtain ⟨s', hs', htrace, hend⟩ := hall ⟨rfl, rfl, rfl, fun h => h⟩ hrun
  exact ⟨s', hs', htrace, sameRegistry_iff_bare.mpr hend.pm, hend.fault⟩

/-- A chain is registered while the handler of another one is about to be called. -/
def registeredInBetween : List (Label Unit) :=
  let tick : Label Unit := .proc ⟨(), (), 1, 0#32⟩
  [.other 1 (.register workingChain 2 fun _ => ()),
    .process 64 ⟨⟨0#32, 0#32, 0#32⟩, []⟩ false, tick, tick, tick,
    .other 1 (.register workingChain 1 fun _ => ()), tick, tick]

/-- It is given the handle it would be given with nothing in flight. -/
theorem calls_undisturbed_two :
    ∃ s', run (sysStep Platform.tests) (Sys.init Platform.tests)
        (registeredInBetween.filter Label.isCall) = some s' ∧
      trace (sysStep Platform.tests) (answers Platform.tests) (Sys.init Platform.tests)
        (registeredInBetween.filter Label.isCall) =
          [.answered 0 (some 0), .answered 0 (some 1)] := by
  obtain ⟨s, hrun⟩ : ∃ s, run (sysStep Platform.tests) (Sys.init Platform.tests)
      registeredInBetween = some s := ⟨_, rfl⟩
  obtain ⟨s', hs', htrace, -⟩ := calls_undisturbed hrun
  exact ⟨s', hs', htrace.trans (by decide)⟩

end Undisturbed

/-! ### A disabled record -/

/-- The handle a callback of a dispatch is called with.  The callbacks of a registration are
left out: `step_pm_register` calls them while the record is enabled already, and
`step_pm_disable_node`, which does not wait for the lock, may come in between two of them. -/
def Call.toNode : Call → Option ℕ
  | .evaluate _ _ handle _ _ | .matched _ _ handle _ _ | .handler _ _ _ handle _ _
  | .error _ _ _ handle _ _ | .subscriber _ _ handle _ => some handle
  | .init _ _ _ _ | .initError _ _ _ _ | .free _ | .returned _ | .answered _ _ => none

/-- The label neither enables the record nor clears the registry. -/
def Label.Leaves (handle : ℕ) : Label Ω → Prop
  | .other _ c => c ≠ .enable handle ∧ c ≠ .clear
  | .process _ _ _ | .proc _ => True

/-- **The record is disabled**, and no dispatch is inside a chain that is its own or was matched
before the last clear.  The second half is needed because a chain that was matched earlier goes on
whatever is disabled meanwhile, and calls with the handle that its slot holds now. -/
structure Silent (handle : ℕ) (s : Sys Ω) : Prop where
  registered : handle < s.pm.handleCounter
  disabled : (s.pm.nodes handle).enabled = false
  outside : ∀ p, s.proc = some p → p.pc.InChain →
    p.under.epoch = s.pm.epoch ∧ p.pnode ≠ handle

section Silent

variable {P : Platform} {s s' s₀ : Sys Ω} {handle : ℕ}

/-- An evaluation calls the callbacks with the handle in the record, if it has a node. -/
theorem lookupVerdict_toNode {cache cache' : StepCache} {r : StepPmNodeRecord Ω}
    {mes : StepMeasurement} {mesAddr : ℕ} {rc : ℤ} {inp : Inputs Ω} {v : Verdict}
    (h : lookupVerdict P cache r mes mesAddr rc inp = .ok (v, cache')) :
    ∀ c ∈ calls v.events, c.toNode = some r.handle ∧ r.node ≠ none := by
  have heval : ∀ w, evaluateRecord r mes mesAddr rc inp = .ok w →
      ∀ c ∈ calls w.events, c.toNode = some r.handle ∧ r.node ≠ none := by
    intro w hw
    obtain ⟨chain, hchain, hnode⟩ := evaluateRecord_eq_ok hw
    obtain ⟨u, hu, rfl⟩ := exists_of_map_eq_ok hnode
    have hfilter : ∀ c ∈ calls u.events, c.toNode = some r.handle := by
      intro c hc
      rw [evaluateFilter] at hu
      split at hu
      · cases hu
        obtain rfl := List.mem_singleton.mp hc
        rfl
      · obtain ⟨x, -, rfl⟩ := exists_of_map_eq_ok hu
        cases hc
    have hmatched : ∀ c ∈ calls (applyMatched chain.head mesAddr r.handle inp.world' u).events,
        c.toNode = some r.handle := by
      rw [applyMatched]
      split
      · exact hfilter
      · split
        · exact hfilter
        · intro c hc
          rw [calls_append, List.mem_append] at hc
          rcases hc with hc | hc
          · exact hfilter c hc
          · obtain rfl := List.mem_singleton.mp hc
            rfl
    exact fun c hc => ⟨hmatched c hc, by simp [hchain]⟩
  cases lookupVerdict_move h with
  | hit _ _ _ => exact fun c hc => by cases hc
  | miss _ _ _ hv _ _ => exact heval v hv
  | fresh _ _ hv => exact heval v hv

/-- A call of the interface calls no callback of a dispatch. -/
theorem apiCall_toNode (P : Platform) (pm : PmState Ω) (c : ApiCall Ω) :
    ∀ call ∈ (apiCall P pm c).calls, call.toNode = none := by
  intro call hcall
  rw [Outcome.calls, List.mem_append] at hcall
  rcases hcall with hcall | hcall
  · obtain ⟨e, he, hcall⟩ := List.mem_filterMap.mp hcall
    have hinit := apiCall_events P pm c e he
    cases e <;> simp_all [Event.isInit, Event.call, Call.toNode]
    all_goals
      subst hcall
      rfl
  · split at hcall
    · rw [List.mem_singleton.mp hcall]
      rfl
    · cases hcall

/-- A chain calls the callbacks with the handle in the record. -/
theorem ChainMove.toNode {p : Proc Ω} {inp : Inputs Ω} (hmove : ChainMove s p inp s') :
    ∃ events, s'.log = s.log ++ events ∧
      ∀ c ∈ calls events, c.toNode = some (s.pm.nodes p.pnode).handle := by
  have hdone : ∀ slot next, calls (doneEvents slot next) = [] := by
    intro slot next
    cases next <;> rfl
  cases hmove with
  | skip | nullError | skipSub => exact ⟨[], (List.append_nil _).symm, by simp⟩
  | call | error | callSub => exact ⟨_, rfl, by simp [Event.call, Call.toNode]⟩
  | fetch | nextSub => exact ⟨_, rfl, by simp [hdone]⟩

/-- A dispatch does not touch the registry. -/
theorem Silent.of_sameRegistry (h : Silent handle s) (hsame : s.pm.SameRegistry s'.pm)
    (hout : ∀ p, s'.proc = some p → p.pc.InChain →
      p.under.epoch = s.pm.epoch ∧ p.pnode ≠ handle) : Silent handle s' where
  registered := hsame.handleCounter ▸ h.registered
  disabled := (hsame.enabled handle).trans h.disabled
  outside p hp hin := hsame.epoch ▸ hout p hp hin

/-- Only `step_pm_enable_node` enables a record. -/
theorem apiCall_disabled {pm : PmState Ω} {i : ℕ} (hlt : i < pm.handleCounter)
    (hoff : (pm.nodes i).enabled = false) {c : ApiCall Ω} (hc : c ≠ .enable i ∧ c ≠ .clear) :
    ((apiCall P pm c).pm.nodes i).enabled = false := by
  have hset : ∀ on j, (on = true → j ≠ i) →
      ((stepPmSetEnabled P pm on j).pm.nodes i).enabled = false := by
    intro on j hj
    unfold stepPmSetEnabled
    split
    · exact hoff
    · split
      · exact hoff
      · by_cases heq : i = j
        · subst heq
          simpa [Outcome.ret] using fun hon => hj hon rfl
        · simpa [Outcome.ret, heq] using hoff
  cases c with
  | register node pri world =>
      simp only [apiCall, stepPmRegister]
      split
      · exact hoff
      · split
        · exact hoff
        · simpa [PmState.addRecord, PmState.fillRecord, hlt.ne] using hoff
  | clear => exact absurd rfl hc.2
  | enable j => exact hset true j fun _ hj => hc.1 (hj ▸ rfl)
  | disable j => exact hset false j (by simp)
  | subscribe j cb userData block =>
      simp only [apiCall, stepPmSubscribeToNode]
      split
      · exact hoff
      · cases block with
        | none => exact hoff
        | some nc =>
            dsimp only
            split
            · exact hoff
            · by_cases heq : i = j
              · subst heq
                simpa [Outcome.ret] using hoff
              · simpa [Outcome.ret, heq] using hoff

/-- Other threads keep the record silent, and call no callback of a dispatch. -/
theorem Silent.call (h : Silent handle s) (hinv : ChainInvariant P s) {tid : Tid}
    {c : ApiCall Ω} (hc : c ≠ .enable handle ∧ c ≠ .clear) :
    Silent handle (s.afterCall (apiCall P s.pm c)) ∧
      ∀ call ∈ observe P s (.other tid c), call.toNode ≠ some handle := by
  obtain ⟨regs, l, hrep⟩ := hinv.registry
  have hepoch := apiCall_epoch_of_ne_clear hrep.counter_le hc.2
  refine ⟨⟨h.registered.trans_le ((apiCall_epoch hrep.counter_le c).2 hepoch),
    apiCall_disabled h.registered h.disabled hc, fun p hp hin => ?_⟩, fun call hcall hnode => ?_⟩
  · exact hepoch.symm ▸ h.outside p hp hin
  · rw [apiCall_toNode P s.pm c call hcall] at hnode
    cases hnode

/-- A registered record holds its own slot as its handle. -/
theorem ChainInvariant.handle_of_lt (hinv : ChainInvariant P s) {i : ℕ}
    (hlt : i < s.pm.handleCounter) : (s.pm.nodes i).handle = i := by
  obtain ⟨regs, l, hrep⟩ := hinv.registry
  obtain ⟨subsOf, hsubs⟩ := hinv.subscribers
  exact (handle_eq_iff hrep hsubs i).mpr (Or.inr hlt)

/-- …and a record that has a node is registered. -/
theorem ChainInvariant.lt_of_node (hinv : ChainInvariant P s) {i : ℕ}
    (hnode : (s.pm.nodes i).node ≠ none) : i < s.pm.handleCounter := by
  obtain ⟨subsOf, hsubs⟩ := hinv.subscribers
  by_contra hge
  exact hnode (hsubs.wiped i (not_lt.mp hge)).2

/-- The work-queue thread keeps the record silent, and calls nothing with its handle.  A visit of
the record passes over it; a visit of another one calls with another handle. -/
theorem Silent.proc (h : Silent handle s) (hinv : ChainInvariant P s) {p : Proc Ω}
    {inp : Inputs Ω} (hproc : s.proc = some p) (hstep : procStep P s p inp = some s') :
    Silent handle s' ∧ ∃ events, s'.log = s.log ++ events ∧
      ∀ c ∈ calls events, c.toNode ≠ some handle := by
  have hmove := procStep_move hstep
  have hsilent : Silent handle s' := by
    refine h.of_sameRegistry hmove.sameRegistry fun p' hp' hin' => ?_
    cases hmove with
    | crash _ => exact h.outside p' hp' hin'
    | enter _ hon _ _ _ _ _ _ =>
        -- a chain is entered for a record that is enabled, and this one is not
        obtain rfl := Option.some.inj hp'
        refine ⟨rfl, fun heq => ?_⟩
        rw [show p.pnode = handle from heq, h.disabled] at hon
        cases hon
    | chain hpc q hsame _ _ _ =>
        obtain rfl := Option.some.inj hp'
        rw [hsame.under, hsame.pnode]
        exact h.outside p hproc hpc
    | chainDone _ q _ hpc' =>
        obtain rfl := Option.some.inj hp'
        rw [hpc'] at hin'
        exact absurd hin' id
    | tail _ => cases hp'
    | lock _ _ _ | noMatch _ _ _ _ _ _ =>
        obtain rfl := Option.some.inj hp'
        exact absurd hin' id
    | head _ | skip _ _ | relock _ _ _ =>
        obtain rfl := Option.some.inj hp'
        exact absurd hin' (Proc.goOn_not_inChain _ _ _)
  refine ⟨hsilent, ?_⟩
  by_cases hin : p.pc.InChain
  · -- inside a chain every call carries the handle of its record, which is another one
    obtain ⟨events, hlog, hevents⟩ := (procStep_chainMove hin hstep).toNode
    obtain ⟨hepoch, hne⟩ := h.outside p hproc hin
    have hlt := (hinv.inFlight p hproc hin).registered hepoch.symm
    rw [hinv.handle_of_lt hlt] at hevents
    refine ⟨events, hlog, fun c hc hnode => hne ?_⟩
    exact Option.some.inj ((hevents c hc).symm.trans hnode)
  · -- the record at the loop body is enabled if it is evaluated
    have hverdict : ∀ {v : Verdict} {cache : StepCache}, (s.pm.nodes p.pnode).enabled = true →
        lookupVerdict P s.pm.cache (s.pm.nodes p.pnode) p.mes p.mesAddr p.rc inp = .ok (v, cache) →
          ∀ c ∈ calls v.events, c.toNode ≠ some handle := by
      intro v cache hon hv c hc hnode
      obtain ⟨hcalled, hsome⟩ := lookupVerdict_toNode hv c hc
      rw [hinv.handle_of_lt (hinv.lt_of_node hsome)] at hcalled
      rw [Option.some.inj (hcalled.symm.trans hnode), h.disabled] at hon
      cases hon
    cases hmove with
    | crash | lock | head | relock => exact ⟨[], (List.append_nil _).symm, by simp⟩
    | skip => exact ⟨_, rfl, by simp [Event.call]⟩
    | noMatch _ hon v cache hv _ =>
        refine ⟨_, rfl, ?_⟩
        simpa [Event.call] using hverdict hon hv
    | enter _ hon v cache chain hv _ _ =>
        refine ⟨_, List.append_assoc _ _ _, ?_⟩
        simpa [Event.call] using hverdict hon hv
    | chain hpc | chainDone hpc => exact absurd hpc hin
    | tail =>
        refine ⟨_, rfl, ?_⟩
        cases p.free <;> simp [Event.call, Call.toNode]

/-- **The step lemma of a silent record.** -/
theorem Silent.step {l : Label Ω} (h : Silent handle s) (hinv : ChainInvariant P s)
    (hl : l.Leaves handle) (hstep : sysStep P s l = some s') :
    Silent handle s' ∧ ∀ c ∈ observe P s l, c.toNode ≠ some handle := by
  obtain ⟨-, hmove⟩ := sysStep_move hstep
  cases hmove with
  | process mesAddr mes free _ =>
      refine ⟨⟨h.registered, h.disabled, fun p hp hin => ?_⟩, by simp [observe]⟩
      obtain rfl := Option.some.inj hp
      exact absurd hin id
  | other tid c _ _ _ => exact h.call hinv hl
  | @proc inp p _ hproc hmove =>
      obtain ⟨hsilent, events, hlog, hevents⟩ := h.proc hinv hproc
        (procStep_of_sysStep hstep hproc)
      refine ⟨hsilent, ?_⟩
      simpa only [observe, hstep, hlog, List.drop_left] using hevents

/-- **`step_pm_disable_node` takes effect.**  From every reachable state in which the record is
disabled and no dispatch is inside its chain, nor inside one that was matched before the last
clear: whatever the threads do, short of enabling the record and of clearing the registry, no
dispatch calls a callback with its handle. -/
theorem disabled_stays_silent {pre post : List (Label Ω)}
    (hpre : run (sysStep P) (Sys.init P) pre = some s₀) (hsilent : Silent handle s₀)
    (hpost : run (sysStep P) s₀ post = some s) (hleaves : ∀ l ∈ post, l.Leaves handle) :
    ∀ c ∈ trace (sysStep P) (observe P) s₀ post, c.toNode ≠ some handle := by
  have hmeets : Meets (sysStep P) (fun _ l => l.Leaves handle) s₀ post :=
    meets_of_forall_mem fun l hl _ => hleaves l hl
  have hstart : (Silent handle s₀ ∧ ChainInvariant P s₀) ∧
      ∀ c ∈ ([] : List Call), c.toNode ≠ some handle :=
    ⟨⟨hsilent, chainInvariant_of_run hpre⟩, by simp⟩
  refine (run_trace_invariant
    (I := fun s (seen : List Call) => (Silent handle s ∧ ChainInvariant P s) ∧
      ∀ c ∈ seen, c.toNode ≠ some handle)
    (fun s l s' seen ⟨⟨h, hinv⟩, hseen⟩ hl hstep => ?_) hstart hmeets hpost).2
  obtain ⟨hsilent, hobserved⟩ := h.step hinv hl hstep
  exact ⟨⟨hsilent, sysStep_chainInvariant hinv hstep⟩,
    List.forall_mem_append.mpr ⟨hseen, hobserved⟩⟩

/-- The second of two records is disabled while the chain of the first one is executed. -/
def disabledInFlight : List (Label Unit) :=
  let tick : Label Unit := .proc ⟨(), (), 1, 0#32⟩
  [.other 1 (.register workingChain 2 fun _ => ()), .other 1 (.register workingChain 1 fun _ => ()),
    .process 64 ⟨⟨0#32, 0#32, 0#32⟩, []⟩ false, tick, tick, tick, .other 1 (.disable 1)]

/-- The dispatch ends without a call for the second one, whatever is registered meanwhile. -/
theorem disabled_stays_silent_in_flight :
    ∃ s₀, run (sysStep Platform.tests) (Sys.init Platform.tests) disabledInFlight = some s₀ ∧
      ∀ c ∈ trace (sysStep Platform.tests) (observe Platform.tests) s₀
        (.other 1 (.register workingChain 0 fun _ => ()) ::
          List.replicate 13 (.proc ⟨(), (), 1, 0#32⟩)), c.toNode ≠ some 1 := by
  obtain ⟨s₀, s, hpre, hsilent, hpost⟩ : ∃ s₀ s : Sys Unit,
      run (sysStep Platform.tests) (Sys.init Platform.tests) disabledInFlight = some s₀ ∧
        Silent 1 s₀ ∧ run (sysStep Platform.tests) s₀
          (.other 1 (.register workingChain 0 fun _ => ()) ::
            List.replicate 13 (.proc ⟨(), (), 1, 0#32⟩)) = some s := by
    refine ⟨_, _, rfl, ⟨by decide, rfl, fun p hp _ => ?_⟩, rfl⟩
    cases hp
    exact ⟨rfl, by decide⟩
  refine ⟨s₀, hpre, disabled_stays_silent hpre hsilent hpost fun l hl => ?_⟩
  rcases List.mem_cons.mp hl with rfl | hl
  · exact ⟨by simp, by simp⟩
  · rw [List.eq_of_mem_replicate hl]
    trivial

end Silent

end StepPipeline
