import StepPipeline.CallbackIdentity
import StepPipeline.DispatchReturns

/-!
# The trace of a chain

Which callbacks `step_pm_process` calls once a record has matched, in which order and
with which arguments, for a chain of any length, any handlers and any results.

* `PhaseTrace`, `NodeTrace`, `ChainTrace` — **the trace to be expected**: node by node,
  within a node start, exec and stop, and behind each call that returned a code the error
  handler of that node with that code;
* `ChainProgress` — the loop invariant: what has been called when the thread stands at a
  given program counter;
* `WithinChain` — the steps from the match to the end of the subscriber loop, with
  anything but a clear by other threads in between;
* `sysStep_marks` — which steps the marks `.execute` and `.chainDone` stand for;
* `chain_execution_trace` — every chain that is entered is executed along its trace, and
  it is executed to the end;
* `stop_means_success_iff` — **what a stop handler may conclude**: that exec succeeded,
  exactly in the chains in which no node with a stop handler failed.

## What the trace is made of

The trace to be expected is a relation between a chain and a list of calls, built over the
phases of a node and over the nodes, and says nothing of program counters; the results of the
handlers are not its parameters but are read off the calls.  It is `ChainProgress` that
connects it to the loop: a handler that is not there is passed over by a step that calls
nothing, and a handler that failed leaves the trace open until the error handler has been told.

`chain_execution_trace` has two halves because neither is enough.  What has been called at any
time is what the progress says, also when the chain ends in a call through NULL; and where every
node has an `error_handler` the thread, left alone, gets to the end of the last node.

## Where a chain begins and ends

A dispatch marks in the log where it enters a chain and where it is done with the subscribers,
and its order (`DispatchOrder`) is told by these marks.  What happens between them is told here.
`sysStep_marks` says that the marks are where they should be: `.execute` is logged by the very
step `chain_execution_trace` starts from.
-/

namespace StepPipeline

open IntrusiveList LabelledRun

variable {Ω : Type}

/-! ### The trace to be expected -/

/-- The callbacks of a matched chain. -/
def Event.isChainCall : Event → Bool
  | .handler _ _ _ _ _ _ _ | .error _ _ _ _ _ _ _ | .subscriber _ _ _ _ _ _ _ => true
  | _ => false

/-- The callbacks of its subscribers. -/
def Event.isSubscriber : Event → Bool
  | .subscriber _ _ _ _ _ _ _ => true
  | _ => false

/-- What all callbacks of a chain have in common: the measurement, and the registration
whose handle they receive. -/
structure ChainArgs where
  mesAddr : ℕ
  under : Registration

/-- The call of a handler that returned `rc`. -/
def ChainArgs.handlerEvent (a : ChainArgs) (phase : Phase) (fn inst : ℕ) (rc : ℤ) : Event :=
  .handler phase fn a.mesAddr a.under.handle inst rc a.under

/-- The call of the error handler for a handler that returned `code`. -/
def ChainArgs.errorEvent (a : ChainArgs) (phase : Phase) (fn inst : ℕ) (code : ℤ) : Event :=
  .error phase fn a.mesAddr a.under.handle inst code a.under

/-- **One handler of a node**: not there, called once and 0 returned, or called once and followed
by the node's error handler with the code it returned.  The trace of the code has no fourth case;
in particular nothing is retried and nothing is skipped. -/
inductive PhaseTrace (a : ChainArgs) (n : StepNode Ω) (inst : ℕ) (phase : Phase) :
    List Event → Prop
  | absent (hnone : n.callbacks.handler phase = none) : PhaseTrace a n inst phase []
  | done (f : FnPtr (StepNodeCallback Ω)) (hsome : n.callbacks.handler phase = some f) :
      PhaseTrace a n inst phase [a.handlerEvent phase f.addr inst 0]
  | failed (f : FnPtr (StepNodeCallback Ω)) (hsome : n.callbacks.handler phase = some f)
      (e : FnPtr (StepNodeError Ω)) (herror : n.callbacks.errorHandler = some e) (code : ℤ)
      (hcode : code ≠ 0) :
      PhaseTrace a n inst phase
        [a.handlerEvent phase f.addr inst code, a.errorEvent phase e.addr inst code]

/-- **One node**: start, exec, stop, each whatever the others returned. -/
def NodeTrace (a : ChainArgs) (n : StepNode Ω) (inst : ℕ) (t : List Event) : Prop :=
  ∃ t₁ t₂ t₃, PhaseTrace a n inst .start t₁ ∧ PhaseTrace a n inst .exec t₂ ∧
    PhaseTrace a n inst .stop t₃ ∧ t = t₁ ++ t₂ ++ t₃

/-- **The nodes of a chain**, one after the other; the instance is the number of nodes before.  A
failure in one node does not keep the next one from being run. -/
inductive ChainTrace (a : ChainArgs) : List (StepNode Ω) → List Event → Prop
  | nil : ChainTrace a [] []
  | snoc {ns : List (StepNode Ω)} {t : List Event} {n : StepNode Ω} {t' : List Event}
      (hchain : ChainTrace a ns t) (hnode : NodeTrace a n ns.length t') :
      ChainTrace a (ns ++ [n]) (t ++ t')

/-! ### The loop invariant -/

/-- What a node has called before the handler of a phase. -/
def PhasesBefore (a : ChainArgs) (n : StepNode Ω) (inst : ℕ) : Phase → List Event → Prop
  | .start, t => t = []
  | .exec, t => PhaseTrace a n inst .start t
  | .stop, t => ∃ t₁ t₂, PhaseTrace a n inst .start t₁ ∧ PhaseTrace a n inst .exec t₂ ∧
      t = t₁ ++ t₂

/-- **What has been called when the thread stands at a program counter.** It is the loop invariant
of the do-while: the nodes before are done, and of the node at hand the handlers before. -/
def ChainProgress (a : ChainArgs) (nodes : List (StepNode Ω)) : Pc Ω → List Event → Prop
  | .call phase inst n next, t => ∃ earlier t₁ t₂, nodes = earlier ++ n :: next ∧
      inst = earlier.length ∧ ChainTrace a earlier t₁ ∧ PhasesBefore a n inst phase t₂ ∧
      t = t₁ ++ t₂
  | .error phase inst n next code, t => ∃ earlier t₁ t₂ f, nodes = earlier ++ n :: next ∧
      inst = earlier.length ∧ ChainTrace a earlier t₁ ∧ PhasesBefore a n inst phase t₂ ∧
      n.callbacks.handler phase = some f ∧ code ≠ 0 ∧
      t = t₁ ++ t₂ ++ [a.handlerEvent phase f.addr inst code]
  | .subsHead, t => ChainTrace a nodes t
  | .subs _ _, t | .subsNext _, t | .relock, t => ∃ t₁ t₂, ChainTrace a nodes t₁ ∧
      (∀ e ∈ t₂, e.isSubscriber = true) ∧ t = t₁ ++ t₂
  | .lock, _ | .head, _ | .visit, _ | .tail, _ => False

section Progress

variable {a : ChainArgs} {nodes earlier next : List (StepNode Ω)} {n : StepNode Ω}
  {inst : ℕ} {phase : Phase} {t₁ t₂ t₃ : List Event}

/-- **Behind a handler**: the next one of the node, the next node, or the end. -/
theorem chainProgress_afterPhase (hnodes : nodes = earlier ++ n :: next)
    (hinst : inst = earlier.length) (hchain : ChainTrace a earlier t₁)
    (hbefore : PhasesBefore a n inst phase t₂) (hphase : PhaseTrace a n inst phase t₃) :
    ChainProgress a nodes (afterPhase phase inst n next) (t₁ ++ t₂ ++ t₃) := by
  cases phase with
  | start =>
      obtain rfl : t₂ = [] := hbefore
      exact ⟨earlier, t₁, t₃, hnodes, hinst, hchain, hphase, by simp⟩
  | exec =>
      exact ⟨earlier, t₁, t₂ ++ t₃, hnodes, hinst, hchain, ⟨t₂, t₃, hbefore, hphase, rfl⟩,
        List.append_assoc _ _ _⟩
  | stop =>
      obtain ⟨u₁, u₂, hstart, hexec, rfl⟩ := hbefore
      subst hinst
      have hnode : NodeTrace a n earlier.length (u₁ ++ u₂ ++ t₃) :=
        ⟨u₁, u₂, t₃, hstart, hexec, hphase, rfl⟩
      have hdone := hchain.snoc hnode
      rw [← List.append_assoc] at hdone
      cases next with
      | nil => exact hnodes ▸ hdone
      | cons m ms =>
          refine ⟨earlier ++ [n], t₁ ++ (u₁ ++ u₂) ++ t₃, [], ?_, ?_, hdone, rfl, ?_⟩
          · rw [hnodes]
            simp
          · simp
          · simp

end Progress

/-! ### The steps of a chain -/

/-- **The steps of one chain**: the thread executes the chain it has entered, and the other
threads do not clear the registry.  What they do otherwise does not matter, since the chain was
read when it was entered. -/
def WithinChain (s : Sys Ω) : Label Ω → Prop
  | .process _ _ _ => False
  | .proc _ => ∀ p, s.proc = some p → p.pc.InChain
  | .other _ c => c ≠ .clear

instance WithinChain.decidable (s : Sys Ω) : ∀ l : Label Ω, Decidable (WithinChain s l)
  | .process _ _ _ => isFalse id
  | .proc _ => inferInstanceAs (Decidable (∀ p ∈ s.proc, p.pc.InChain))
  | .other _ .clear => isFalse fun h => h rfl
  | .other _ (.register _ _ _) | .other _ (.enable _) | .other _ (.disable _)
  | .other _ (.subscribe _ _ _ _) => isTrue (by simp [WithinChain])

/-! ### A chain with a node that fails -/

/-- A chain of two nodes; the exec handler of the first one fails. -/
def failingChain : StepNodeChain Unit :=
  ⟨⟨.catchAll, { StepNodeCallbacks.none with
    execHandler := some ⟨100, fun _ mes _ _ => (-1, mes)⟩
    stopHandler := some ⟨101, fun _ mes _ _ => (0, mes)⟩
    errorHandler := some ⟨102, fun _ mes _ _ _ => mes⟩ }, 0⟩,
    [⟨.catchAll, { StepNodeCallbacks.none with
      execHandler := some ⟨103, fun _ mes _ _ => (0, mes)⟩
      errorHandler := some ⟨102, fun _ mes _ _ _ => mes⟩ }, 0⟩]⟩

def failingTick : Label Unit := .proc ⟨(), (), 1, 0#32⟩

/-- The failing chain is registered and a measurement comes, up to the visit of the
record. -/
def failingVisit : List (Label Unit) :=
  [.other 1 (.register failingChain 1 fun _ => ()),
    .process 64 ⟨⟨0#32, 0#32, 0#32⟩, []⟩ false, failingTick, failingTick]

/-- What is called of it: both exec handlers, and behind the first one the error handler and the
stop handler. -/
def failingCalls : List Event :=
  [.handler .exec 100 64 0 0 (-1) ⟨0, 0⟩, .error .exec 102 64 0 0 (-1) ⟨0, 0⟩,
    .handler .stop 101 64 0 0 0 ⟨0, 0⟩, .handler .exec 103 64 0 1 0 ⟨0, 0⟩]

/-- The next step enters the chain, and seven more go through its nodes. -/
theorem failingChain_entered :
    ∃ s s' t p p', run (sysStep Platform.tests) (Sys.init Platform.tests) failingVisit = some s ∧
      s.proc = some p ∧ p.pc = .visit ∧ (s.pm.nodes p.pnode).node = some failingChain ∧
      sysStep Platform.tests s failingTick = some s' ∧ s'.proc = some p' ∧ p'.pc.InChain ∧
      Meets (sysStep Platform.tests) WithinChain s' (List.replicate 7 failingTick) ∧
      run (sysStep Platform.tests) s' (List.replicate 7 failingTick) = some t ∧
      t.log = s'.log ++ failingCalls ∧ t.proc.map Proc.pc = some .subsHead :=
  ⟨_, _, _, _, _, rfl, rfl, rfl, rfl, rfl, rfl, trivial, by decide, rfl, rfl, rfl⟩

/-! ### The execution of one chain -/

/-- The step from `s` to `s'` enters the chain of the record in slot `i`. -/
def EntersChain (s : Sys Ω) (i : ℕ) (s' : Sys Ω) : Prop :=
  ∃ p p', s.proc = some p ∧ p.pc = .visit ∧ p.pnode = i ∧ s'.proc = some p' ∧ p'.pc.InChain

/-- The step from `s` to `s'` leaves it. -/
def LeavesChain (s : Sys Ω) (i : ℕ) (s' : Sys Ω) : Prop :=
  ∃ p p', s.proc = some p ∧ p.pc.InChain ∧ p.pnode = i ∧ s'.proc = some p' ∧ ¬p'.pc.InChain

/-- What a step from `s` to `s'` logs, as far as the marks of chains go. -/
def MarksChains (s : Sys Ω) (events : List Event) (s' : Sys Ω) : Prop :=
  ∀ i, (.execute i ∈ events ↔ EntersChain s i s') ∧ (.chainDone i ∈ events ↔ LeavesChain s i s')

section Marks

variable {P : Platform} {s s' : Sys Ω} {p q : Proc Ω} {inp : Inputs Ω} {events : List Event}

/-- A step that logs no mark neither enters a chain nor leaves one. -/
theorem marksChains_of_neither (hexecute : ∀ i, .execute i ∉ events)
    (hdone : ∀ i, .chainDone i ∉ events) (hproc : s.proc = some p) (hproc' : s'.proc = some q)
    (henters : p.pc = .visit → ¬q.pc.InChain) (hleaves : p.pc.InChain → q.pc.InChain) :
    MarksChains s events s' := by
  refine fun i => ⟨iff_of_false (hexecute i) ?_, iff_of_false (hdone i) ?_⟩
  · rintro ⟨p', q', hp', hpc, -, hq', hin⟩
    obtain rfl := Option.some.inj (hproc.symm.trans hp')
    obtain rfl := Option.some.inj (hproc'.symm.trans hq')
    exact henters hpc hin
  · rintro ⟨p', q', hp', hin, -, hq', hout⟩
    obtain rfl := Option.some.inj (hproc.symm.trans hp')
    obtain rfl := Option.some.inj (hproc'.symm.trans hq')
    exact hout (hleaves hin)

theorem goOn_not_inChain (p : Proc Ω) (snode : Links ℕ) (next : Option ℕ) :
    ¬(p.goOn snode next).pc.InChain := by
  cases next <;> exact id

/-- The events of an evaluation are no marks. -/
theorem verdict_not_mark {v : Verdict} {cache : StepCache}
    (hv : lookupVerdict P s.pm.cache (s.pm.nodes p.pnode) p.mes p.mesAddr p.rc inp =
      .ok (v, cache)) {e : Event} (he : e.isEvaluation = false) (hvisit : e ≠ .visit p.pnode true)
    (hverdict : e ≠ .verdict p.pnode v.value) :
    e ∉ Event.visit p.pnode true :: v.events ++ [.verdict p.pnode v.value] := by
  have hevents : e ∉ v.events := fun hmem => by
    rw [lookupVerdict_events hv e hmem] at he
    cases he
  simp [hvisit, hverdict, hevents]

/-- **The marks of a step of the work-queue thread.** -/
theorem ProcMove.marks (hmove : ProcMove P s p inp s') (hproc : s.proc = some p) :
    ∃ events, s'.log = s.log ++ events ∧ MarksChains s events s' := by
  cases hmove with
  | crash u =>
      exact ⟨[], (List.append_nil _).symm, marksChains_of_neither (by simp) (by simp) hproc hproc
        (fun hpc hin => by rw [hpc] at hin; exact hin) id⟩
  | lock hpc m hm =>
      exact ⟨[], (List.append_nil _).symm, marksChains_of_neither (by simp) (by simp) hproc rfl
        (fun _ => id) fun hin => by rw [hpc] at hin; exact hin⟩
  | head hpc =>
      exact ⟨[], (List.append_nil _).symm, marksChains_of_neither (by simp) (by simp) hproc rfl
        (fun _ => goOn_not_inChain _ _ _) fun hin => by rw [hpc] at hin; exact absurd hin id⟩
  | skip hpc hoff =>
      exact ⟨_, rfl, marksChains_of_neither (by simp) (by simp) hproc rfl
        (fun _ => goOn_not_inChain _ _ _) fun hin => by rw [hpc] at hin; exact absurd hin id⟩
  | noMatch hpc hon v cache hv hzero =>
      exact ⟨_, rfl, marksChains_of_neither (fun i => verdict_not_mark hv rfl (by simp) (by simp))
        (fun i => verdict_not_mark hv rfl (by simp) (by simp)) hproc rfl (fun _ => id)
        fun hin => by rw [hpc] at hin; exact hin⟩
  | enter hpc hon v cache chain hv hnonzero hchain =>
      -- the evaluation writes no mark, so `.execute` is the only one, and it names this record
      refine ⟨_, List.append_assoc _ _ _, fun i => ⟨?_, iff_of_false ?_ ?_⟩⟩
      · have hnot : Event.execute i ∉
            Event.visit p.pnode true :: v.events ++ [.verdict p.pnode v.value] :=
          verdict_not_mark hv rfl (by simp) (by simp)
        rw [List.mem_append, or_iff_right hnot, List.mem_singleton]
        constructor
        · rintro ⟨⟩
          exact ⟨p, _, hproc, hpc, rfl, rfl, trivial⟩
        · rintro ⟨p', -, hp', -, rfl, -⟩
          obtain rfl := Option.some.inj (hproc.symm.trans hp')
          rfl
      · rw [List.mem_append, not_or]
        exact ⟨verdict_not_mark hv rfl (by simp) (by simp), by simp⟩
      · rintro ⟨p', -, hp', hin, -⟩
        obtain rfl := Option.some.inj (hproc.symm.trans hp')
        rw [hpc] at hin
        exact hin
  | chain hpc p' hsame hpc' events hevents =>
      rw [List.filter_eq_nil_iff] at hevents
      exact ⟨events, rfl, marksChains_of_neither (fun i h => hevents _ h rfl)
        (fun i h => hevents _ h rfl) hproc rfl
        (fun hvisit => by rw [hvisit] at hpc; exact absurd hpc id) fun _ => hpc'⟩
  | chainDone hpc p' hsame hpc' =>
      have hout : ¬p'.pc.InChain := by
        rw [hpc']
        exact id
      refine ⟨_, rfl, fun i => ⟨iff_of_false (by simp) ?_, ?_⟩⟩
      · rintro ⟨q, -, hq, hvisit, -⟩
        obtain rfl := Option.some.inj (hproc.symm.trans hq)
        rw [hvisit] at hpc
        exact hpc
      · rw [List.mem_singleton]
        constructor
        · rintro ⟨⟩
          exact ⟨p, p', hproc, hpc, rfl, rfl, hout⟩
        · rintro ⟨q, -, hq, -, rfl, -⟩
          obtain rfl := Option.some.inj (hproc.symm.trans hq)
          rfl
  | relock hpc m hm =>
      exact ⟨[], (List.append_nil _).symm, marksChains_of_neither (by simp) (by simp) hproc rfl
        (fun _ => goOn_not_inChain _ _ _) fun hin => by rw [hpc] at hin; exact absurd hin id⟩
  | tail hpc =>
      -- the dispatch is over: there is no thread behind this step to be in a chain
      refine ⟨_, rfl, fun i => ⟨iff_of_false ?_ ?_, iff_of_false ?_ ?_⟩⟩
      · split <;> simp
      · rintro ⟨-, q, -, -, -, hq, -⟩
        cases hq
      · split <;> simp
      · rintro ⟨-, q, -, -, -, hq, -⟩
        cases hq

/-- **The marks in the log**: `.execute` stands where a chain is entered, which is where
`ExecutesChain` speaks from, and `.chainDone` where it is left, behind its subscribers. -/
theorem sysStep_marks {l : Label Ω} (hstep : sysStep P s l = some s') :
    ∃ events, s'.log = s.log ++ events ∧ MarksChains s events s' := by
  obtain ⟨-, hmove⟩ := sysStep_move hstep
  cases hmove with
  | process _ _ _ hproc =>
      refine ⟨[], (List.append_nil _).symm, fun i => ⟨iff_of_false (by simp) ?_,
        iff_of_false (by simp) ?_⟩⟩
      all_goals
        rintro ⟨p, -, hp, -⟩
        rw [hproc] at hp
        cases hp
  | proc hproc hmove => exact hmove.marks hproc
  | other t c _ _ _ =>
      have hnot : ∀ e ∈ (apiCall P s.pm c).events, e.isInit = true := apiCall_events P s.pm c
      refine ⟨_, rfl, fun i => ⟨iff_of_false (fun h => by cases hnot _ h) ?_,
        iff_of_false (fun h => by cases hnot _ h) ?_⟩⟩
      · rintro ⟨p, q, hp, hpc, -, hq, hin⟩
        obtain rfl := Option.some.inj (hp.symm.trans hq)
        rw [hpc] at hin
        exact hin
      · rintro ⟨p, q, hp, hin, -, hq, hout⟩
        obtain rfl := Option.some.inj (hp.symm.trans hq)
        exact hout hin

end Marks

/-- What holds while a chain is executed: it is the chain that was entered, the registry
has not been cleared since, and what has been called is what its progress says. -/
structure ChainRun (P : Platform) (a : ChainArgs) (nodes : List (StepNode Ω))
    (before : List Event) (s : Sys Ω) : Prop where
  invariant : ChainInvariant P s
  epoch : s.pm.epoch = a.under.epoch
  progress : ∃ q events, s.proc = some q ∧ q.mesAddr = a.mesAddr ∧ q.under = a.under ∧
    s.log = before ++ events ∧
    ChainProgress a nodes q.pc (events.filter Event.isChainCall)

section Run

variable {P : Platform} {s s' : Sys Ω} {p p' : Proc Ω} {inp : Inputs Ω} {a : ChainArgs}
  {nodes : List (StepNode Ω)} {before t : List Event}

/-- The handle a callback receives is that of the match. -/
theorem ChainInvariant.handle_eq (h : ChainInvariant P s) (hproc : s.proc = some p)
    (hin : p.pc.InChain) (hepoch : s.pm.epoch = p.under.epoch) :
    (s.pm.nodes p.pnode).handle = p.under.handle := by
  obtain ⟨regs, l, hrep⟩ := h.registry
  obtain ⟨subsOf, hsubs⟩ := h.subscribers
  have hflight := h.inFlight p hproc hin
  rw [hflight.handle]
  exact (handle_eq_iff hrep hsubs p.pnode).mpr (Or.inr (hflight.registered hepoch))

theorem doneEvents_not_chainCall (slot : ℕ) (next : Option ℕ) :
    (doneEvents slot next).filter Event.isChainCall = [] := by
  unfold doneEvents
  split <;> rfl

theorem chainProgress_goOnSubs {nodes : List (StepNode Ω)} (q : Proc Ω) (subSnode : Links ℕ)
    (next : Option ℕ) (h : ∃ t₁ t₂, ChainTrace a nodes t₁ ∧
      (∀ e ∈ t₂, e.isSubscriber = true) ∧ t = t₁ ++ t₂) :
    ChainProgress a nodes (q.goOnSubs subSnode next).pc t := by
  cases next <;> exact h

/-- **The step lemma of the progress.** -/
theorem ChainMove.progress (hmove : ChainMove s p inp s') (hproc : s.proc = some p)
    (hhandle : (s.pm.nodes p.pnode).handle = p.under.handle)
    (h : ChainProgress ⟨p.mesAddr, p.under⟩ nodes p.pc t) :
    ∃ q events, s'.proc = some q ∧ q.mesAddr = p.mesAddr ∧ q.under = p.under ∧
      s'.log = s.log ++ events ∧
      ChainProgress ⟨p.mesAddr, p.under⟩ nodes q.pc
        (t ++ events.filter Event.isChainCall) := by
  cases hmove with
  | @skip phase inst n next hpc hnone =>
      rw [hpc] at h
      obtain ⟨earlier, t₁, t₂, hnodes, hinst, hchain, hbefore, rfl⟩ := h
      refine ⟨_, [], rfl, rfl, rfl, (List.append_nil _).symm, ?_⟩
      exact chainProgress_afterPhase hnodes hinst hchain hbefore (.absent hnone)
  | @call phase inst n next hpc f hsome rc mes _ =>
      rw [hpc] at h
      obtain ⟨earlier, t₁, t₂, hnodes, hinst, hchain, hbefore, rfl⟩ := h
      refine ⟨_, _, rfl, rfl, rfl, rfl, ?_⟩
      rw [hhandle]
      -- a handler that fails stays in its phase until the error handler has been called
      by_cases hrc : rc = 0
      · subst hrc
        exact chainProgress_afterPhase hnodes hinst hchain hbefore (.done f hsome)
      · simp only [if_neg hrc]
        exact ⟨earlier, t₁, t₂, f, hnodes, hinst, hchain, hbefore, hsome, hrc, rfl⟩
  | @error phase inst n next code hpc e herror mes =>
      rw [hpc] at h
      obtain ⟨earlier, t₁, t₂, f, hnodes, hinst, hchain, hbefore, hsome, hcode, rfl⟩ := h
      refine ⟨_, _, rfl, rfl, rfl, rfl, ?_⟩
      rw [hhandle]
      let a : ChainArgs := ⟨p.mesAddr, p.under⟩
      have hphase : PhaseTrace a n inst phase
          ([a.handlerEvent phase f.addr inst code] ++ [a.errorEvent phase e.addr inst code]) :=
        .failed f hsome e herror code hcode
      have hafter := chainProgress_afterPhase hnodes hinst hchain hbefore hphase
      rw [← List.append_assoc] at hafter
      exact hafter
  | nullError hpc hnone =>
      exact ⟨p, [], hproc, rfl, rfl, (List.append_nil _).symm, by simpa using h⟩
  | fetch hpc =>
      rw [hpc] at h
      refine ⟨_, _, rfl, ?_, ?_, rfl, ?_⟩
      · exact (p.goOnSubs_sameVisit s.pm.epoch s.pm.subSnode _).mesAddr
      · exact (p.goOnSubs_sameVisit s.pm.epoch s.pm.subSnode _).under
      · rw [doneEvents_not_chainCall, List.append_nil]
        exact chainProgress_goOnSubs _ _ _ ⟨t, [], h, by simp, by simp⟩
  | skipSub hpc hnone =>
      rw [hpc] at h
      refine ⟨_, [], rfl, rfl, rfl, (List.append_nil _).symm, ?_⟩
      rw [List.filter_nil, List.append_nil]
      exact h
  | callSub hpc f hsome mes =>
      rw [hpc] at h
      obtain ⟨t₁, t₂, hchain, hsubs, rfl⟩ := h
      refine ⟨_, _, rfl, rfl, rfl, rfl, t₁, t₂ ++ _, hchain, ?_, List.append_assoc _ _ _⟩
      simpa [or_imp, forall_and, Event.isChainCall, Event.isSubscriber] using hsubs
  | nextSub hpc =>
      rw [hpc] at h
      refine ⟨_, _, rfl, ?_, ?_, rfl, ?_⟩
      · exact (p.goOnSubs_sameVisit p.fetched s.pm.subSnode _).mesAddr
      · exact (p.goOnSubs_sameVisit p.fetched s.pm.subSnode _).under
      · rw [doneEvents_not_chainCall, List.append_nil]
        exact chainProgress_goOnSubs _ _ _ h

/-- Calls of other threads call none of the callbacks of a chain. -/
theorem apiCall_not_chainCall (P : Platform) (pm : PmState Ω) (c : ApiCall Ω) :
    (apiCall P pm c).events.filter Event.isChainCall = [] := by
  rw [List.filter_eq_nil_iff]
  intro e he
  have hinit := apiCall_events P pm c e he
  cases e <;> simp_all [Event.isInit, Event.isChainCall]

/-- **The step lemma of one chain.** A step of the thread adds what the program counter says, and
a step of another one adds nothing of the chain's. -/
theorem sysStep_chainRun {label : Label Ω} (h : ChainRun P a nodes before s)
    (hlabel : WithinChain s label) (hstep : sysStep P s label = some s') :
    ChainRun P a nodes before s' := by
  have hinv := sysStep_chainInvariant h.invariant hstep
  obtain ⟨q, events, hproc, hmes, hunder, hlog, hprogress⟩ := h.progress
  obtain ⟨regs, l, hrep⟩ := h.invariant.registry
  obtain ⟨-, hmove⟩ := sysStep_move hstep
  cases hmove with
  | process _ _ _ _ => exact absurd hlabel id
  | other t c _ _ _ =>
      refine ⟨hinv, (apiCall_epoch_of_ne_clear hrep.counter_le hlabel).trans h.epoch, q,
        events ++ (apiCall P s.pm c).events, hproc, hmes, hunder, ?_, ?_⟩
      · rw [← List.append_assoc, ← hlog]
        rfl
      · rw [List.filter_append, apiCall_not_chainCall, List.append_nil]
        exact hprogress
  | @proc inp p _ hproc' hmove =>
      obtain rfl := Option.some.inj (hproc.symm.trans hproc')
      have hin := hlabel q hproc
      have hchain := procStep_chainMove hin (procStep_of_sysStep hstep hproc)
      have hhandle := h.invariant.handle_eq hproc hin (hunder ▸ h.epoch)
      have ha : (⟨q.mesAddr, q.under⟩ : ChainArgs) = a := by
        rw [hmes, hunder]
      obtain ⟨q', new, hproc'', hmes', hunder', hlog', hprogress'⟩ :=
        hchain.progress hproc hhandle (ha.symm ▸ hprogress)
      rw [ha] at hprogress'
      refine ⟨hinv, hmove.sameRegistry.epoch.trans h.epoch, q', events ++ new, hproc'',
        hmes'.trans hmes, hunder'.trans hunder, ?_, ?_⟩
      · rw [hlog', hlog, List.append_assoc]
      · rw [List.filter_append]
        exact hprogress'

/-- A step that leaves defined behaviour leaves the thread where it was. -/
theorem ProcMove.fault_or_proc (hmove : ProcMove P s p inp s') :
    s'.fault = s.fault ∨ s'.proc = s.proc := by
  cases hmove with
  | crash _ => exact Or.inr rfl
  | _ => exact Or.inl rfl

theorem chainInvariant_of_run {labels : List (Label Ω)}
    (h : run (sysStep P) (Sys.init P) labels = some s) : ChainInvariant P s :=
  run_preserves (fun _ _ _ hI hstep => sysStep_chainInvariant hI hstep) (chainInvariant_init P) h

theorem returnInvariant_of_run {labels : List (Label Ω)}
    (h : run (sysStep P) (Sys.init P) labels = some s) : ReturnInvariant P s :=
  run_returnInvariant (returnInvariant_init P) h

/-- A chain that has been entered has called nothing yet. -/
theorem chainRun_enter (h : ChainInvariant P s) (hproc : s.proc = some p)
    (hpc : p.pc = .visit) (henter : sysStep P s (.proc inp) = some s')
    (hproc' : s'.proc = some p') (hin : p'.pc.InChain) :
    ∃ chain, (s.pm.nodes p.pnode).node = some chain ∧
      p'.pc = .call .start 0 chain.head chain.rest ∧ s'.fault = none ∧
      ChainRun P ⟨p'.mesAddr, p'.under⟩ (chain.head :: chain.rest) s'.log s' := by
  have hout : ¬p.pc.InChain := by rw [hpc]; exact id
  have hmove := procStep_move (procStep_of_sysStep henter hproc)
  obtain ⟨chain, hchain, -, hunder, hpc'⟩ := hmove.enter_of_inChain hproc hout hproc' hin
  have hfault : s'.fault = none := by
    rcases hmove.fault_or_proc with hsame | hsame
    · exact hsame.trans (sysStep_move henter).1
    · rw [hsame, hproc] at hproc'
      exact absurd (Option.some.inj hproc' ▸ hin) hout
  refine ⟨chain, hchain, hpc', hfault, sysStep_chainInvariant h henter, ?_, p', [], hproc',
    rfl, rfl, (List.append_nil _).symm, ?_⟩
  · rw [hmove.sameRegistry.epoch, hunder]
  · rw [hpc']
    exact ⟨[], [], [], rfl, rfl, .nil, rfl, rfl⟩

/-! ### A chain is executed to the end -/

/-- A chain whose handlers have not all been called, in a system that has not left defined
behaviour. -/
structure Calling (P : Platform) (a : ChainArgs) (nodes : List (StepNode Ω))
    (before : List Event) (s : Sys Ω) : Prop where
  run : ChainRun P a nodes before s
  returns : ReturnInvariant P s
  fault : s.fault = none
  standing : ∃ q, s.proc = some q ∧ q.pc.BeforeSubscribers

/-- All handlers have been called, and no subscriber has. -/
def HandlersDone (a : ChainArgs) (nodes : List (StepNode Ω)) (before : List Event)
    (s : Sys Ω) : Prop :=
  ∃ q events, s.proc = some q ∧ q.pc = .subsHead ∧ s.fault = none ∧
    s.log = before ++ events ∧ ChainTrace a nodes (events.filter Event.isChainCall)

/-- A handler, or the error handler of its node if there is one, leads on to the next. -/
theorem ChainMove.beforeSubscribers (hmove : ChainMove s p inp s')
    (hpc : p.pc.BeforeSubscribers) (hne : p.pc ≠ .subsHead)
    (herror : ∀ phase inst n next code, p.pc = .error phase inst n next code →
      n.callbacks.errorHandler ≠ none) :
    s'.fault = s.fault ∧ ∃ q, s'.proc = some q ∧ q.pc.BeforeSubscribers := by
  cases hmove with
  | skip _ _ | error _ _ _ _ =>
      exact ⟨rfl, _, rfl, afterPhase_beforeSubscribers _ _ _ _⟩
  | call _ f _ rc mes _ =>
      refine ⟨rfl, _, rfl, ?_⟩
      dsimp only
      split
      · exact afterPhase_beforeSubscribers _ _ _ _
      · trivial
  | nullError hpc' hnone => exact absurd hnone (herror _ _ _ _ _ hpc')
  | fetch hpc' => exact absurd hpc' hne
  | skipSub hpc' _ | callSub hpc' _ _ _ | nextSub hpc' =>
      rw [hpc'] at hpc
      exact absurd hpc id

theorem Pc.BeforeSubscribers.inChain {pc : Pc Ω} (h : pc.BeforeSubscribers) : pc.InChain := by
  cases pc <;> trivial

/-- **One step of a chain with error handlers**: it is taken, and brings the end of the
handlers closer. -/
theorem Calling.step (h : Calling P a nodes before s)
    (herror : ∀ n ∈ nodes, n.callbacks.errorHandler ≠ none)
    (hgoal : ¬HandlersDone a nodes before s) (inp : Inputs Ω) :
    ∃ s', sysStep P s (.proc inp) = some s' ∧ Calling P a nodes before s' ∧
      (HandlersDone a nodes before s' ∨ s'.rank < s.rank) := by
  obtain ⟨q, hproc, hstanding⟩ := h.standing
  obtain ⟨q', events, hproc', hmes, hunder, hlog, hprogress⟩ := h.run.progress
  obtain rfl := Option.some.inj (hproc.symm.trans hproc')
  have hin := hstanding.inChain
  have hne : q.pc ≠ .subsHead := by
    intro hpc
    rw [hpc] at hprogress
    exact hgoal ⟨q, events, hproc, hpc, h.fault, hlog, hprogress⟩
  have herror' : ∀ phase inst n next code, q.pc = .error phase inst n next code →
      n.callbacks.errorHandler ≠ none := by
    intro phase inst n next code hpc
    rw [hpc] at hprogress
    obtain ⟨earlier, -, -, -, hnodes, -⟩ := hprogress
    exact herror n (hnodes ▸ by simp)
  obtain ⟨s', hs'⟩ : ∃ s', procStep P s q inp = some s' :=
    procStep_enabled h.returns.sys.lock hproc
  have hstep : sysStep P s (.proc inp) = some s' := by
    simpa [sysStep, h.fault, hproc] using hs'
  have hmove := procStep_chainMove hin hs'
  obtain ⟨hfault, hstanding'⟩ := hmove.beforeSubscribers hstanding hne herror'
  have hlabel : WithinChain s (.proc inp) := fun p hp =>
    Option.some.inj (hproc.symm.trans hp) ▸ hin
  refine ⟨s', hstep, ⟨sysStep_chainRun h.run hlabel hstep,
    sysStep_returnInvariant h.returns hstep, hfault.trans h.fault, hstanding'⟩, Or.inr ?_⟩
  have hrank : s.rank = q.rank s.pm := by rw [Sys.rank, hproc]
  rw [hrank]
  exact (hmove.rank_lt h.returns.subSnode).resolve_left fun hcrash =>
    hcrash (hfault.trans h.fault)

/-- **A chain entered in `s` is executed along its trace.** -/
structure ExecutesChain (P : Platform) (a : ChainArgs) (nodes : List (StepNode Ω))
    (s : Sys Ω) : Prop where
  /-- What has been called is at any time what the progress along the chain says. -/
  progress : ∀ labels t, Meets (sysStep P) WithinChain s labels →
    run (sysStep P) s labels = some t →
    ∃ q events, t.proc = some q ∧ t.log = s.log ++ events ∧
      ChainProgress a nodes q.pc (events.filter Event.isChainCall)
  /-- The thread gets to the end of the last node, where the whole trace has been called
  and no subscriber yet. -/
  completes : (∀ n ∈ nodes, n.callbacks.errorHandler ≠ none) → ∀ inputs : ℕ → Inputs Ω,
    ∃ k t, run (sysStep P) s ((List.range k).map fun i => .proc (inputs i)) = some t ∧
      HandlersDone a nodes s.log t

/-- **The chain execution trace.**  Whenever a record has matched and its chain is entered,
the chain is executed along its trace: node by node with the instances 0, 1, 2, …, whatever
the handlers return and the other threads do short of a clear. -/
theorem chain_execution_trace {start : List (Label Ω)}
    (hstart : run (sysStep P) (Sys.init P) start = some s) (hproc : s.proc = some p)
    (hpc : p.pc = .visit) (henter : sysStep P s (.proc inp) = some s')
    (hproc' : s'.proc = some p') (hin : p'.pc.InChain) :
    ∃ chain, (s.pm.nodes p.pnode).node = some chain ∧
      ExecutesChain P ⟨p'.mesAddr, p'.under⟩ (chain.head :: chain.rest) s' := by
  have hreturns := returnInvariant_of_run hstart
  obtain ⟨chain, hchain, hpc', hfault, hstart⟩ :=
    chainRun_enter (chainInvariant_of_run hstart) hproc hpc henter hproc' hin
  refine ⟨chain, hchain, fun labels t hlabels hrun => ?_, fun herror inputs => ?_⟩
  · obtain ⟨-, -, q, events, hq, -, -, hlog, hprogress⟩ :=
      run_invariant (fun _ _ _ hI hl hstep => sysStep_chainRun hI hl hstep) hstart hlabels hrun
    exact ⟨q, events, hq, hlog, hprogress⟩
  · let a : ChainArgs := ⟨p'.mesAddr, p'.under⟩
    let nodes := chain.head :: chain.rest
    have hcalling : Calling P a nodes s'.log s' :=
      ⟨hstart, sysStep_returnInvariant hreturns henter, hfault, p', hproc',
        by rw [hpc']; trivial⟩
    have hone : ∀ s l, Calling P a nodes s'.log s → ¬HandlersDone a nodes s'.log s →
        (∃ inp, l = Label.proc inp) → ∃ t, sysStep P s l = some t ∧
          Calling P a nodes s'.log t ∧ (HandlersDone a nodes s'.log t ∨ t.rank < s.rank) := by
      rintro s l hI hgoal ⟨inp, rfl⟩
      exact hI.step herror hgoal inp
    exact exists_run_of_variant Sys.rank hone s' (fun i => .proc (inputs i))
      (fun i => ⟨inputs i, rfl⟩) hcalling

/-- **The chain with the failing node** is executed along its trace, which is `failingCalls`: the
second node is not skipped, and the error handler of the first one is told its code. -/
theorem chain_execution_trace_failing :
    ∃ (s s' t : Sys Unit) (p p' : Proc Unit),
      run (sysStep Platform.tests) (Sys.init Platform.tests) failingVisit = some s ∧
      s.proc = some p ∧ (s.pm.nodes p.pnode).node = some failingChain ∧
      sysStep Platform.tests s failingTick = some s' ∧ s'.proc = some p' ∧
      ExecutesChain Platform.tests ⟨p'.mesAddr, p'.under⟩
        (failingChain.head :: failingChain.rest) s' ∧
      run (sysStep Platform.tests) s' (List.replicate 7 failingTick) = some t ∧
      t.log = s'.log ++ failingCalls ∧ t.proc.map Proc.pc = some .subsHead := by
  obtain ⟨s, s', t, p, p', hstart, hproc, hpc, hnode, henter, hproc', hin, -, hrun, hlog, hend⟩ :=
    failingChain_entered
  obtain ⟨chain, hchain, hexecutes⟩ := chain_execution_trace hstart hproc hpc henter hproc' hin
  obtain rfl := Option.some.inj (hnode.symm.trans hchain)
  exact ⟨s, s', t, p, p', hstart, hproc, hnode, henter, hproc', hexecutes, hrun, hlog, hend⟩

end Run

/-! ### What a stop handler may conclude -/

/-- A stop handler was called for the node of that instance. -/
def Event.stopCalled (inst : ℕ) : Event → Prop
  | .handler .stop _ _ _ i _ _ => i = inst
  | _ => False

/-- The exec handler of that instance returned `rc`. -/
def Event.execReturned (inst : ℕ) (rc : ℤ) : Event → Prop
  | .handler .exec _ _ _ i r _ => i = inst ∧ r = rc
  | _ => False

/-- **Stop means success**: a stop handler is called only if the exec handler of its node, if
there is one, returned 0.  This is what the header promises of `stop_handler`. -/
def StopMeansSuccess (calls : List Event) : Prop :=
  ∀ inst, (∃ e ∈ calls, e.stopCalled inst) → ∀ rc, (∃ e ∈ calls, e.execReturned inst rc) →
    rc = 0

/-- No exec handler of a node that has a stop handler returned a code.  This is a condition on
what the handlers answer, and says nothing about which calls are made. -/
def StoppedNodesSucceed (nodes : List (StepNode Ω)) (calls : List Event) : Prop :=
  ∀ inst n, nodes[inst]? = some n → n.callbacks.stopHandler ≠ none →
    ∀ rc, (∃ e ∈ calls, e.execReturned inst rc) → rc = 0

/-- The nodes whose stop phase is over when the thread is about to report the failure of a handler:
those before, and the node itself if it is the stop handler that has failed. -/
def stopped (nodes : List (StepNode Ω)) (phase : Phase) (inst : ℕ) : List (StepNode Ω) :=
  nodes.take (if phase = .stop then inst + 1 else inst)

/-- **What is kept of the contract** in the execution of a chain entered in `s`: at any
time, if no node with a stop handler has failed so far, stop means success; at the end of the
last node, if and only if; and where a failure is to be reported, if and only if none of the
nodes that have been through their stop phase has failed.  The last clause is about the chains
that end there, with a call through NULL, as well. -/
def StopContract (P : Platform) (nodes : List (StepNode Ω)) (s : Sys Ω) : Prop :=
  ∀ labels t, Meets (sysStep P) WithinChain s labels → run (sysStep P) s labels = some t →
    ∃ q events, t.proc = some q ∧ t.log = s.log ++ events ∧
      let calls := events.filter Event.isChainCall
      (StoppedNodesSucceed nodes calls → StopMeansSuccess calls) ∧
        (q.pc = .subsHead → (StopMeansSuccess calls ↔ StoppedNodesSucceed nodes calls)) ∧
        ∀ phase inst n next code, q.pc = .error phase inst n next code →
          (StopMeansSuccess calls ↔ StoppedNodesSucceed (stopped nodes phase inst) calls)

section Stop

variable {P : Platform} {s s' : Sys Ω} {p p' : Proc Ω} {inp : Inputs Ω} {a : ChainArgs}
  {nodes : List (StepNode Ω)} {n : StepNode Ω} {inst : ℕ} {phase : Phase} {t : List Event}

/-- A subscriber is no stop handler. -/
theorem Event.not_stopCalled {e : Event} (h : e.isSubscriber = true) (i : ℕ) :
    ¬e.stopCalled i := by
  cases e with
  | subscriber _ _ _ _ _ _ _ => exact id
  | _ => cases h

/-- A stop handler is called in the stop phase of a node that has one, and for that
node. -/
theorem PhaseTrace.stopCalled_iff (h : PhaseTrace a n inst phase t) (i : ℕ) :
    (∃ e ∈ t, e.stopCalled i) ↔
      phase = .stop ∧ i = inst ∧ n.callbacks.stopHandler ≠ none := by
  cases h with
  | absent hnone =>
      refine iff_of_false (by simp) ?_
      rintro ⟨rfl, -, hstop⟩
      exact hstop hnone
  | done f hsome =>
      cases phase with
      | start => simp [ChainArgs.handlerEvent, Event.stopCalled]
      | exec => simp [ChainArgs.handlerEvent, Event.stopCalled]
      | stop =>
          have hstop : n.callbacks.stopHandler = some f := hsome
          simp [ChainArgs.handlerEvent, Event.stopCalled, hstop, eq_comm]
  | failed f hsome e _ code _ =>
      cases phase with
      | start => simp [ChainArgs.handlerEvent, ChainArgs.errorEvent, Event.stopCalled]
      | exec => simp [ChainArgs.handlerEvent, ChainArgs.errorEvent, Event.stopCalled]
      | stop =>
          have hstop : n.callbacks.stopHandler = some f := hsome
          simp [ChainArgs.handlerEvent, ChainArgs.errorEvent, Event.stopCalled, hstop, eq_comm]

theorem exists_mem_append_iff {q : Event → Prop} {t₁ t₂ : List Event} :
    (∃ e ∈ t₁ ++ t₂, q e) ↔ (∃ e ∈ t₁, q e) ∨ ∃ e ∈ t₂, q e := by
  simp only [List.mem_append, or_and_right, exists_or]

/-- Every node that has a stop handler gets it called, whatever exec returned. -/
theorem NodeTrace.stopCalled_iff (h : NodeTrace a n inst t) (i : ℕ) :
    (∃ e ∈ t, e.stopCalled i) ↔ i = inst ∧ n.callbacks.stopHandler ≠ none := by
  obtain ⟨t₁, t₂, t₃, h₁, h₂, h₃, rfl⟩ := h
  rw [exists_mem_append_iff, exists_mem_append_iff, h₁.stopCalled_iff, h₂.stopCalled_iff,
    h₃.stopCalled_iff]
  simp

/-- **Stop handlers along a chain**: called for exactly the nodes that have one. -/
theorem ChainTrace.stopCalled_iff (h : ChainTrace a nodes t) (i : ℕ) :
    (∃ e ∈ t, e.stopCalled i) ↔
      ∃ n, nodes[i]? = some n ∧ n.callbacks.stopHandler ≠ none := by
  induction h with
  | nil => simp
  | @snoc ns t n t' _ hnode ih =>
      rw [exists_mem_append_iff, ih, hnode.stopCalled_iff]
      constructor
      · rintro (⟨m, hm, hstop⟩ | ⟨rfl, hstop⟩)
        · have hlt := (List.getElem?_eq_some_iff.mp hm).1
          exact ⟨m, (List.getElem?_append_left hlt).trans hm, hstop⟩
        · exact ⟨n, List.getElem?_concat_length, hstop⟩
      · rintro ⟨m, hm, hstop⟩
        by_cases hlt : i < ns.length
        · rw [List.getElem?_append_left hlt] at hm
          exact Or.inl ⟨m, hm, hstop⟩
        · have hle := (List.getElem?_eq_some_iff.mp hm).1
          rw [List.length_append, List.length_singleton] at hle
          obtain rfl : i = ns.length := by omega
          rw [List.getElem?_concat_length] at hm
          exact Or.inr ⟨rfl, Option.some.inj hm ▸ hstop⟩

/-- Before the stop phase of a node its stop handler has not been called. -/
theorem PhasesBefore.not_stopCalled (h : PhasesBefore a n inst phase t) (i : ℕ) :
    ¬∃ e ∈ t, e.stopCalled i := by
  cases phase with
  | start =>
      obtain rfl : t = [] := h
      simp
  | exec =>
      have hstart : PhaseTrace a n inst .start t := h
      simp [hstart.stopCalled_iff]
  | stop =>
      obtain ⟨t₁, t₂, h₁, h₂, rfl⟩ := h
      rw [exists_mem_append_iff, h₁.stopCalled_iff, h₂.stopCalled_iff]
      simp

/-- **At any time** stop handlers have been called only for nodes that have one. -/
theorem ChainProgress.stop_of_called {pc : Pc Ω} (h : ChainProgress a nodes pc t) {i : ℕ}
    (hcalled : ∃ e ∈ t, e.stopCalled i) :
    ∃ n, nodes[i]? = some n ∧ n.callbacks.stopHandler ≠ none := by
  have hearlier : ∀ {earlier later : List (StepNode Ω)} {t₁ : List Event},
      nodes = earlier ++ later → ChainTrace a earlier t₁ → (∃ e ∈ t₁, e.stopCalled i) →
      ∃ n, nodes[i]? = some n ∧ n.callbacks.stopHandler ≠ none := by
    intro earlier later t₁ hnodes hchain hcalled
    obtain ⟨n, hn, hstop⟩ := (hchain.stopCalled_iff i).mp hcalled
    have hlt := (List.getElem?_eq_some_iff.mp hn).1
    exact ⟨n, by rw [hnodes, List.getElem?_append_left hlt, hn], hstop⟩
  have hloop : (∃ t₁ t₂, ChainTrace a nodes t₁ ∧ (∀ e ∈ t₂, e.isSubscriber = true) ∧
      t = t₁ ++ t₂) → ∃ n, nodes[i]? = some n ∧ n.callbacks.stopHandler ≠ none := by
    rintro ⟨t₁, t₂, hchain, hsubs, rfl⟩
    rcases exists_mem_append_iff.mp hcalled with hcalled | ⟨e, he, hstop⟩
    · exact hearlier (List.append_nil _).symm hchain hcalled
    · exact absurd hstop (Event.not_stopCalled (hsubs e he) i)
  -- what is behind the nodes that are done can only be the failing stop handler of the next
  cases pc with
  | call phase inst n next =>
      obtain ⟨earlier, t₁, t₂, hnodes, -, hchain, hbefore, rfl⟩ := h
      rcases exists_mem_append_iff.mp hcalled with hcalled | hcalled
      · exact hearlier hnodes hchain hcalled
      · exact absurd hcalled (hbefore.not_stopCalled i)
  | error phase inst n next code =>
      obtain ⟨earlier, t₁, t₂, f, hnodes, hinst, hchain, hbefore, hsome, -, rfl⟩ := h
      rw [exists_mem_append_iff, exists_mem_append_iff] at hcalled
      rcases hcalled with (hcalled | hcalled) | ⟨e, he, hstop⟩
      · exact hearlier hnodes hchain hcalled
      · exact absurd hcalled (hbefore.not_stopCalled i)
      · rw [List.mem_singleton.mp he] at hstop
        cases phase with
        | start => exact absurd hstop id
        | exec => exact absurd hstop id
        | stop =>
            obtain rfl : inst = i := hstop
            refine ⟨n, by rw [hnodes, hinst]; simp, ?_⟩
            rw [show n.callbacks.stopHandler = some f from hsome]
            exact Option.some_ne_none f
  | subsHead => exact hearlier (List.append_nil _).symm h hcalled
  | subs _ _ => exact hloop h
  | subsNext _ => exact hloop h
  | relock => exact hloop h
  | lock => exact absurd h id
  | head => exact absurd h id
  | visit => exact absurd h id
  | tail => exact absurd h id

/-- Where stop handlers have been called for exactly the nodes in `nodes` that have one, the
contract is kept exactly if none of these has failed. -/
theorem stopMeansSuccess_iff (h : ∀ i, (∃ e ∈ t, e.stopCalled i) ↔
      ∃ n, nodes[i]? = some n ∧ n.callbacks.stopHandler ≠ none) :
    StopMeansSuccess t ↔ StoppedNodesSucceed nodes t := by
  constructor
  · intro hsuccess i n hn hstop rc hrc
    exact hsuccess i ((h i).mpr ⟨n, hn, hstop⟩) rc hrc
  · intro hsucceed i hcalled rc hrc
    obtain ⟨n, hn, hstop⟩ := (h i).mp hcalled
    exact hsucceed i n hn hstop rc hrc

/-- **Before an error handler** stop handlers have been called for the nodes that have been through
their stop phase. -/
theorem ChainProgress.stopCalled_iff_of_error {next : List (StepNode Ω)} {code : ℤ}
    (h : ChainProgress a nodes (.error phase inst n next code) t) (i : ℕ) :
    (∃ e ∈ t, e.stopCalled i) ↔
      ∃ m, (stopped nodes phase inst)[i]? = some m ∧ m.callbacks.stopHandler ≠ none := by
  obtain ⟨earlier, t₁, t₂, f, rfl, rfl, hchain, hbefore, hsome, -, rfl⟩ := h
  have hcurrent := hbefore.not_stopCalled i
  rw [exists_mem_append_iff, exists_mem_append_iff, or_iff_left hcurrent, hchain.stopCalled_iff]
  cases phase with
  | start | exec =>
      simp [stopped, ChainArgs.handlerEvent, Event.stopCalled]
  | stop =>
      -- the handler that has failed is the stop handler of the node
      have hstop : n.callbacks.stopHandler = some f := hsome
      have htake : stopped (earlier ++ n :: next) .stop earlier.length = earlier ++ [n] := by
        rw [stopped, if_pos rfl, List.take_length_add_append]
        rfl
      rw [htake]
      constructor
      · rintro (⟨m, hm, hm'⟩ | ⟨e, he, hcalled⟩)
        · have hlt := (List.getElem?_eq_some_iff.mp hm).1
          exact ⟨m, (List.getElem?_append_left hlt).trans hm, hm'⟩
        · rw [List.mem_singleton.mp he] at hcalled
          obtain rfl : earlier.length = i := hcalled
          exact ⟨n, List.getElem?_concat_length, by simp [hstop]⟩
      · rintro ⟨m, hm, hm'⟩
        by_cases hlt : i < earlier.length
        · rw [List.getElem?_append_left hlt] at hm
          exact Or.inl ⟨m, hm, hm'⟩
        · have hle := (List.getElem?_eq_some_iff.mp hm).1
          rw [List.length_append, List.length_singleton] at hle
          obtain rfl : i = earlier.length := by omega
          exact Or.inr ⟨_, List.mem_singleton_self _, rfl⟩

/-- **Stop means success, exactly.**  Whenever a record has matched and its chain is entered,
stop handlers are called for successful nodes only if and only if no node with a stop
handler fails. -/
theorem stop_means_success_iff {start : List (Label Ω)}
    (hstart : run (sysStep P) (Sys.init P) start = some s) (hproc : s.proc = some p)
    (hpc : p.pc = .visit) (henter : sysStep P s (.proc inp) = some s')
    (hproc' : s'.proc = some p') (hin : p'.pc.InChain) :
    ∃ chain, (s.pm.nodes p.pnode).node = some chain ∧
      StopContract P (chain.head :: chain.rest) s' := by
  obtain ⟨chain, hchain, -, -, hrunning⟩ :=
    chainRun_enter (chainInvariant_of_run hstart) hproc hpc henter hproc' hin
  refine ⟨chain, hchain, fun labels t hlabels hrun => ?_⟩
  obtain ⟨-, -, q, events, hq, -, -, hlog, hprogress⟩ :=
    run_invariant (fun _ _ _ hI hl hstep => sysStep_chainRun hI hl hstep) hrunning hlabels hrun
  refine ⟨q, events, hq, hlog, fun hsucceed inst hcalled rc hrc => ?_, fun hdone => ?_, ?_⟩
  · obtain ⟨n, hn, hstop⟩ := hprogress.stop_of_called hcalled
    exact hsucceed inst n hn hstop rc hrc
  · -- at the end of the chain every stop handler there is has been called
    rw [hdone] at hprogress
    have htrace : ChainTrace _ _ _ := hprogress
    exact stopMeansSuccess_iff htrace.stopCalled_iff
  · intro phase inst n next code herror
    rw [herror] at hprogress
    exact stopMeansSuccess_iff hprogress.stopCalled_iff_of_error

/-- **The chain with the failing node**: its exec handler has failed, it has a stop handler, and so
the contract is not kept at the end of the chain. -/
theorem stop_means_success_iff_failing :
    ∃ (s s' t : Sys Unit) (p : Proc Unit),
      run (sysStep Platform.tests) (Sys.init Platform.tests) failingVisit = some s ∧
      s.proc = some p ∧ (s.pm.nodes p.pnode).node = some failingChain ∧
      sysStep Platform.tests s failingTick = some s' ∧
      StopContract Platform.tests (failingChain.head :: failingChain.rest) s' ∧
      run (sysStep Platform.tests) s' (List.replicate 7 failingTick) = some t ∧
      t.log = s'.log ++ failingCalls ∧ ¬StopMeansSuccess failingCalls := by
  obtain ⟨s, s', t, p, p', hstart, hproc, hpc, hnode, henter, hproc', hin, hwithin, hrun, hlog,
    hend⟩ := failingChain_entered
  obtain ⟨chain, hchain, hcontract⟩ := stop_means_success_iff hstart hproc hpc henter hproc' hin
  obtain rfl := Option.some.inj (hnode.symm.trans hchain)
  refine ⟨s, s', t, p, hstart, hproc, hnode, henter, hcontract, hrun, hlog, fun hsuccess => ?_⟩
  obtain ⟨q, events, hq, hevents, -, hiff, -⟩ := hcontract _ t hwithin hrun
  obtain rfl : events = failingCalls := List.append_cancel_left (hevents.symm.trans hlog)
  rw [hq] at hend
  have hfailed := ((hiff (Option.some.inj hend)).mp hsuccess) 0 failingChain.head rfl (by decide)
    (-1) ⟨_, List.mem_cons_self, rfl, rfl⟩
  exact absurd hfailed (by decide)

/-- **Stop after failure**: the exec handler of the node returns -1, the error handler is
told, and the stop handler is called all the same. -/
theorem stop_after_failure :
    ∃ s, run (sysStep Platform.tests) (Sys.init Platform.tests)
        (failingVisit ++ List.replicate 5 failingTick) = some s ∧
      s.log.filter Event.isChainCall =
        [.handler .exec 100 64 0 0 (-1) ⟨0, 0⟩, .error .exec 102 64 0 0 (-1) ⟨0, 0⟩,
          .handler .stop 101 64 0 0 0 ⟨0, 0⟩] ∧
      ¬StopMeansSuccess (s.log.filter Event.isChainCall) := by
  obtain ⟨s, hrun, hcalls⟩ : ∃ s, run (sysStep Platform.tests) (Sys.init Platform.tests)
        (failingVisit ++ List.replicate 5 failingTick) = some s ∧
      s.log.filter Event.isChainCall =
        [.handler .exec 100 64 0 0 (-1) ⟨0, 0⟩, .error .exec 102 64 0 0 (-1) ⟨0, 0⟩,
          .handler .stop 101 64 0 0 0 ⟨0, 0⟩] := ⟨_, rfl, by decide⟩
  refine ⟨s, hrun, hcalls, fun h => ?_⟩
  rw [hcalls] at h
  have hzero := h 0 ⟨.handler .stop 101 64 0 0 0 ⟨0, 0⟩, by simp, rfl⟩ (-1)
    ⟨_, List.mem_cons_self, rfl, rfl⟩
  exact absurd hzero (by decide)

end Stop

end StepPipeline
