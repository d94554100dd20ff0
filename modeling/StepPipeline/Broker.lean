import StepPipeline.Library.Behaviour
import StepPipeline.SubscriberDelivery

/-!
# The broker

What the processor manager is for: nodes are registered with a priority, measurements are
handed to all of them that accept it.  There are no slots, links, locks or program
counters here, only the registrations in the order in which they are served.

* `Call` and `Event.call` — **what the application sees**: which of its functions are
  called, with which arguments and results, and what its own calls return;
* `Broker` — the registrations in force, in order, each with its subscriptions, and what
  the filter cache remembers;
* `HandlerRuns`, `NodeRuns`, `ChainRuns`, `SubscriberRuns`, `EntryRuns`, `DispatchRuns` —
  how a measurement is served, level by level;
* `Request` and `Broker.Serves` — what can be asked of the broker, and what it does;
  `Broker.answer` computes it for all requests but the dispatch of a measurement.

A callback sees whatever world it sees, so a dispatch has as many outcomes as there are
answers of the callbacks and of the clock.

## What a broker is for

This is the specification the processor manager is measured by, written in its own terms and not
translated from the code.  It still says what the code does where that is arguably wrong: a failed
handler is reported whether there is an error handler or not, and a handle that was not given out
yet is tolerated.  A specification that did better would not be refined; one that left these cases
open would say less than is true.

Two things are taken over from the faithful model.  What a lookup yields is `lookupVerdict`, cache
and filter chain included, since evaluation has a theory of its own; and initialisation is
`initLoop`, which is a fold over the chain as it stands.

## Granted or not

A subscription needs memory, and whether there is any is not something the broker knows.  The
answer of the heap is a part of the request.  Results about the broker hence hold for every heap,
also for one that is exhausted by blocks nobody can reach any more.
-/

namespace StepPipeline

open PriorityOrder Behaviour

variable {Ω : Type}

/-! ### What the application sees -/

/-- A call of one of its functions, or the return of one of its calls.  Functions and
measurements appear by their addresses. -/
inductive Call where
  | init (fn handle inst : ℕ) (rc : ℤ)
  | initError (fn handle inst : ℕ) (code : ℤ)
  | evaluate (fn mes handle inst : ℕ) (result : Bool)
  | matched (fn mes handle inst : ℕ) (result : Bool)
  | handler (phase : Phase) (fn mes handle inst : ℕ) (rc : ℤ)
  | error (phase : Phase) (fn mes handle inst : ℕ) (code : ℤ)
  | subscriber (fn mes handle userData : ℕ)
  /-- `step_sp_free` is called. -/
  | free (mes : ℕ)
  /-- `step_pm_process` returns. -/
  | returned (rc : ℤ)
  /-- A call of the registry interface returns, with the handle it has stored. -/
  | answered (rc : ℤ) (handle : Option ℕ)
  deriving DecidableEq, Repr

/-- What is left of an event without the slots, the callback blocks and the history.  The
decisions of the dispatch loop are not visible to the application, so nothing is left of them. -/
def Event.call : Event → Option Call
  | .init fn handle inst rc => some (.init fn handle inst rc)
  | .initError fn handle inst code => some (.initError fn handle inst code)
  | .evaluate fn mes handle inst result => some (.evaluate fn mes handle inst result)
  | .matched fn mes handle inst result => some (.matched fn mes handle inst result)
  | .handler phase fn mes handle inst rc _ => some (.handler phase fn mes handle inst rc)
  | .error phase fn mes handle inst code _ => some (.error phase fn mes handle inst code)
  | .subscriber _ fn mes handle userData _ _ => some (.subscriber fn mes handle userData)
  | .free mes => some (.free mes)
  | .returned rc => some (.returned rc)
  | .visit _ _ | .verdict _ _ | .execute _ | .chainDone _ => none

/-- The calls a log tells of. -/
def calls (log : List Event) : List Call := log.filterMap Event.call

@[simp] theorem calls_nil : calls [] = [] := rfl

@[simp] theorem calls_append (log log' : List Event) :
    calls (log ++ log') = calls log ++ calls log' :=
  List.filterMap_append

@[simp] theorem calls_cons (e : Event) (log : List Event) :
    calls (e :: log) = e.call.toList ++ calls log := by
  rw [calls, List.filterMap_cons]
  cases e.call <;> rfl

/-! ### The broker -/

/-- A registration in force.  Its place in the list is its rank, so nothing but the handle refers
to the order of registration. -/
structure BrokerEntry (Ω : Type) where
  handle : ℕ
  chain : StepNodeChain Ω
  priority : ℕ
  enabled : Bool
  subscriptions : List (Subscription Ω)

/-- The registrations in force in the order in which they are served, and the cache. -/
structure Broker (Ω : Type) where
  entries : List (BrokerEntry Ω)
  cache : StepCache

/-- Nobody is registered. -/
def Broker.init (P : Platform) : Broker Ω := ⟨[], .init P⟩

/-- **A measurement on its way** through the registrations: what one of them leaves to the next,
and to the end of the dispatch. -/
structure Delivery where
  mes : StepMeasurement
  rc : ℤ
  cache : StepCache

/-! ### A measurement is served -/

section Dispatch

variable (P : Platform) (mesAddr handle : ℕ)

/-- **A failed handler is reported** to the node's error handler; the code does so whether
there is one or not. -/
inductive ReportRuns (n : StepNode Ω) (inst : ℕ) (phase : Phase) (code : ℤ) :
    Behaviour Delivery Call UndefinedBehaviour Delivery
  | reported {d : Delivery} (e : FnPtr (StepNodeError Ω))
      (herror : n.callbacks.errorHandler = some e) (world : Ω) :
      ReportRuns n inst phase code d [.error phase e.addr mesAddr handle inst code]
        (.ok { d with mes := (e.code world (some d.mes) handle inst code).getD d.mes })
  | unreported {d : Delivery} (hnone : n.callbacks.errorHandler = none) :
      ReportRuns n inst phase code d [] (.error .nullCall)

/-- **One handler of a node**: not there, successful, or failed and reported. -/
inductive HandlerRuns (n : StepNode Ω) (inst : ℕ) (phase : Phase) :
    Behaviour Delivery Call UndefinedBehaviour Delivery
  | absent {d : Delivery} (hnone : n.callbacks.handler phase = none) :
      HandlerRuns n inst phase d [] (.ok d)
  | done {d : Delivery} (f : FnPtr (StepNodeCallback Ω))
      (hsome : n.callbacks.handler phase = some f) (world : Ω) (mes : StepMeasurement)
      (hcode : f.code world d.mes handle inst = (0, mes)) :
      HandlerRuns n inst phase d [.handler phase f.addr mesAddr handle inst 0]
        (.ok { d with mes := mes })
  | failed {d : Delivery} (f : FnPtr (StepNodeCallback Ω))
      (hsome : n.callbacks.handler phase = some f) (world : Ω) (code : ℤ)
      (mes : StepMeasurement) (hcode : f.code world d.mes handle inst = (code, mes))
      (hne : code ≠ 0) {t : List Call} {r : Except UndefinedBehaviour Delivery}
      (hreport : ReportRuns mesAddr handle n inst phase code { d with mes := mes } t r) :
      HandlerRuns n inst phase d ([.handler phase f.addr mesAddr handle inst code] ++ t) r

/-- **One node.** -/
def NodeRuns (n : StepNode Ω) (inst : ℕ) :
    Behaviour Delivery Call UndefinedBehaviour Delivery :=
  Seq (HandlerRuns mesAddr handle n inst .start)
    (Seq (HandlerRuns mesAddr handle n inst .exec) (HandlerRuns mesAddr handle n inst .stop))

/-- **The nodes of a chain** from instance `inst` on. -/
def ChainRuns (inst : ℕ) (nodes : List (StepNode Ω)) :
    Behaviour Delivery Call UndefinedBehaviour Delivery :=
  Each (fun x => NodeRuns mesAddr handle x.1 x.2) (nodes.zipIdx inst)

/-- **One subscription.** -/
inductive SubscriberRuns (x : Subscription Ω) :
    Behaviour Delivery Call UndefinedBehaviour Delivery
  | absent {d : Delivery} (hnone : x.cb = none) : SubscriberRuns x d [] (.ok d)
  | called {d : Delivery} (f : FnPtr (NodeChainCompletedCallback Ω)) (hsome : x.cb = some f)
      (world : Ω) :
      SubscriberRuns x d [.subscriber f.addr mesAddr handle x.userData]
        (.ok { d with mes := f.code world d.mes handle x.userData })

/-- What a lookup reads of a registration. -/
def BrokerEntry.record (e : BrokerEntry Ω) : StepPmNodeRecord Ω :=
  { (.zero : StepPmNodeRecord Ω) with node := some e.chain, handle := e.handle }

/-- **One registration**: passed over while it is disabled or if it does not accept the
measurement, else its chain runs and its subscribers are told. -/
inductive EntryRuns (e : BrokerEntry Ω) : Behaviour Delivery Call UndefinedBehaviour Delivery
  | disabled {d : Delivery} (hoff : e.enabled = false) : EntryRuns e d [] (.ok d)
  | invalid {d : Delivery} (hon : e.enabled = true) (inp : Inputs Ω) (u : UndefinedBehaviour)
      (hv : lookupVerdict P d.cache e.record d.mes mesAddr d.rc inp = .error u) :
      EntryRuns e d [] (.error u)
  | rejected {d : Delivery} (hon : e.enabled = true) (inp : Inputs Ω) (v : Verdict)
      (cache : StepCache)
      (hv : lookupVerdict P d.cache e.record d.mes mesAddr d.rc inp = .ok (v, cache))
      (hzero : v.value = 0) : EntryRuns e d (calls v.events) (.ok ⟨v.mes, v.rc, cache⟩)
  | accepted {d : Delivery} (hon : e.enabled = true) (inp : Inputs Ω) (v : Verdict)
      (cache : StepCache)
      (hv : lookupVerdict P d.cache e.record d.mes mesAddr d.rc inp = .ok (v, cache))
      (hne : v.value ≠ 0) {t : List Call} {r : Except UndefinedBehaviour Delivery}
      (hrun : Seq (ChainRuns mesAddr e.handle 0 (e.chain.head :: e.chain.rest))
        (Each (SubscriberRuns mesAddr e.handle) e.subscriptions) ⟨v.mes, v.rc, cache⟩ t r) :
      EntryRuns e d (calls v.events ++ t) r

/-- The calls at the end of `step_pm_process`. -/
def finishCalls (free : Bool) (rc : ℤ) : List Call :=
  (if free then [.free mesAddr] else []) ++ [.returned rc]

/-- The measurement is freed, if it is to, and the dispatch returns. -/
def FinishRuns (free : Bool) : Behaviour Delivery Call UndefinedBehaviour Delivery :=
  fun d t r => t = finishCalls mesAddr free d.rc ∧ r = .ok d

/-- **A dispatch**: one registration after the other, then the end. -/
def DispatchRuns (free : Bool) (entries : List (BrokerEntry Ω)) :
    Behaviour Delivery Call UndefinedBehaviour Delivery :=
  Seq (Each (EntryRuns P mesAddr) entries) (FinishRuns mesAddr free)

end Dispatch

/-! ### Requests -/

/-- What can be asked of the broker.  A subscription is granted memory or not. -/
inductive Request (Ω : Type) where
  | register (node : StepNodeChain Ω) (pri : ℕ) (world : ℕ → Ω)
  | clear
  | enable (handle : ℕ)
  | disable (handle : ℕ)
  | subscribe (handle : ℕ) (cb : Option (FnPtr (NodeChainCompletedCallback Ω)))
      (userData : ℕ) (granted : Bool)
  | process (mesAddr : ℕ) (mes : StepMeasurement) (free : Bool)

namespace Broker

variable (P : Platform) (b : Broker Ω)

/-- A newcomer lets everybody pass who has at least its priority. -/
def add (node : StepNodeChain Ω) (pri : ℕ) : Broker Ω :=
  { b with
    entries := ahead BrokerEntry.priority pri b.entries ++
      ⟨b.entries.length, node, pri, true, []⟩ :: behind BrokerEntry.priority pri b.entries }

/-- What is changed in the registration with a handle, if there is one. -/
def alter (handle : ℕ) (f : BrokerEntry Ω → BrokerEntry Ω) : Broker Ω :=
  { b with entries := b.entries.map fun e => if e.handle = handle then f e else e }

/-- `b'` after a call that returns `rc`, made with `handle`.  The handle that would be
given out next is tolerated, except where it lies behind the array. -/
def answerHandle (handle : ℕ) (b' : Broker Ω) :
    List Call × Except UndefinedBehaviour (Broker Ω) :=
  if b.entries.length < handle then ([.answered negEinval none], .ok b)
  else if P.nodeLimit ≤ handle then ([], .error .outOfBounds)
  else ([.answered 0 none], .ok b')

/-- **The answer of the broker** to every request but the dispatch of a measurement. -/
def answer : Request Ω → List Call × Except UndefinedBehaviour (Broker Ω)
  | .register node pri world =>
      if b.entries.length = P.nodeLimit then
        ([.answered negEnomem (some 0xFFFFFFFF)], .ok b)
      else
        let handle := b.entries.length
        let init := initLoop handle world 0 (node.head :: node.rest) 0 []
        match init.fault with
        | some u => (calls init.events, .error u)
        | none => (calls init.events ++ [.answered init.rc (some handle)], .ok (b.add node pri))
  | .clear =>
      ([.answered 0 none],
        .ok ⟨[], if P.filterCache then stepCacheClear P b.cache else b.cache⟩)
  | .enable handle =>
      b.answerHandle P handle (b.alter handle fun e => { e with enabled := true })
  | .disable handle =>
      b.answerHandle P handle (b.alter handle fun e => { e with enabled := false })
  | .subscribe handle cb userData granted =>
      if b.entries.length < handle then ([.answered negEinval none], .ok b)
      else if ¬granted then ([.answered negEnomem none], .ok b)
      else
        b.answerHandle P handle
          (b.alter handle fun e =>
            { e with subscriptions := e.subscriptions ++ [⟨handle, cb, userData⟩] })
  | .process _ _ _ => ([], .ok b)

/-- **What the broker does**: it dispatches a measurement in one of the ways the callbacks leave
open, and answers every other request.  It is a relation between the state before, what is seen,
and how it ends, which may be undefined behaviour. -/
def Serves : Request Ω → Behaviour (Broker Ω) Call UndefinedBehaviour (Broker Ω)
  | .process mesAddr mes free => fun b t r =>
      ∃ out, DispatchRuns P mesAddr free b.entries ⟨mes, 0, b.cache⟩ t out ∧
        r = out.map fun d => { b with cache := d.cache }
  | request => fun b t r => b.answer P request = (t, r)

end Broker

end StepPipeline
