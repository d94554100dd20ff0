import StepPipeline.Filter

/-!
# Processor nodes

`struct step_node` and its callbacks.  A callback is code of the application:
its type says what it may read and what it gives back.  `Ω` is everything else a
callback can depend on — its own statics, sensors, other threads — so a callback
that answers the same arguments differently from call to call is a function of
`Ω`, and nothing is assumed of the values of `Ω` successive calls see.

A measurement is passed by a pointer to writable memory, so every callback that
receives one may leave it changed.

## What a callback may depend on

In C a callback is a pointer to a function that may read and write anything.  What it can do is
cut down to what its type promises: it is given a measurement, a handle, an instance and the user
data or configuration, and it answers with a code and, through the pointer, with the measurement
it leaves.  Everything else it may read is in `Ω`.  That it does not reach into the statics of the
manager, and that it returns, is assumed by this choice of type, not by a hypothesis of any
theorem.

`Ω` is a parameter throughout and never instantiated by the model.  Where a result compares two
runs it says which surroundings they share; where it speaks of one run the surroundings of every
call are arbitrary.

## Addresses

Two function pointers with one address are one function; the model does not need that, and a
`FnPtr` is the pair.  The address is what the log shows of a call, so that the log is a plain list
of numbers and codes, whose entries can be compared, and says nothing about what code there was
behind them.
-/

namespace StepPipeline

/-- A function pointer that is not NULL: its address, which identifies it, and
what a call of it does.  A pointer that may be NULL is an `Option` of these. -/
structure FnPtr (τ : Type) where
  addr : ℕ
  code : τ

section Callbacks

variable (Ω : Type)

/-- `step_node_init_t`: configuration, handle, instance. -/
abbrev StepNodeInit := Ω → ℕ → ℕ → ℕ → ℤ

/-- `step_node_callback_t`: measurement, handle, instance. -/
abbrev StepNodeCallback := Ω → StepMeasurement → ℕ → ℕ → ℤ × StepMeasurement

/-- `step_node_evaluate_t`: measurement, handle, instance. -/
abbrev StepNodeEvaluate := Ω → StepMeasurement → ℕ → ℕ → Bool × StepMeasurement

/-- `step_node_error_t`: measurement (NULL when initialisation failed), handle, instance, error
code.  The prototype returns nothing, so an error handler cannot stop what its caller does next;
all it can do is change the measurement. -/
abbrev StepNodeError :=
  Ω → Option StepMeasurement → ℕ → ℕ → ℤ → Option StepMeasurement

/-- `node_chain_completed_callback`: measurement, handle, user data. -/
abbrev NodeChainCompletedCallback := Ω → StepMeasurement → ℕ → ℕ → StepMeasurement

/-- `struct step_node_callbacks`.  Each of the seven may be NULL.  The header calls all of them
optional; the manager tests every one before it calls it, except `error_handler`. -/
structure StepNodeCallbacks where
  initHandler : Option (FnPtr (StepNodeInit Ω))
  evaluateHandler : Option (FnPtr (StepNodeEvaluate Ω))
  matchedHandler : Option (FnPtr (StepNodeEvaluate Ω))
  startHandler : Option (FnPtr (StepNodeCallback Ω))
  execHandler : Option (FnPtr (StepNodeCallback Ω))
  stopHandler : Option (FnPtr (StepNodeCallback Ω))
  errorHandler : Option (FnPtr (StepNodeError Ω))

/-- `struct step_node`, without the link to the next node.  `config` is a pointer that the manager
hands on to `init_handler` and never follows, so its address is all there is to it. -/
structure StepNode where
  filters : StepFilterChain
  callbacks : StepNodeCallbacks Ω
  config : ℕ

/-- A node chain: the node a `struct step_node *` points to, and the nodes its `next` links lead
to, up to the NULL that ends them.  There is at least one, as `step_pm_register` reads the first
without a test.  Chains live in the application and are not changed while registered, so the links
have been followed once and for all. -/
structure StepNodeChain where
  head : StepNode Ω
  rest : List (StepNode Ω)

end Callbacks

/-- No callback at all. -/
def StepNodeCallbacks.none {Ω : Type} : StepNodeCallbacks Ω :=
  ⟨.none, .none, .none, .none, .none, .none, .none⟩

/-- The three handlers a matched node runs, in order. -/
inductive Phase where
  | start
  | exec
  | stop
  deriving DecidableEq, Repr

/-- The handler of a phase. -/
def StepNodeCallbacks.handler {Ω : Type} (cbs : StepNodeCallbacks Ω) :
    Phase → Option (FnPtr (StepNodeCallback Ω))
  | .start => cbs.startHandler
  | .exec => cbs.execHandler
  | .stop => cbs.stopHandler

section Handler

variable {Ω : Type} (cbs : StepNodeCallbacks Ω)

@[simp] theorem StepNodeCallbacks.handler_start : cbs.handler .start = cbs.startHandler := rfl

@[simp] theorem StepNodeCallbacks.handler_exec : cbs.handler .exec = cbs.execHandler := rfl

@[simp] theorem StepNodeCallbacks.handler_stop : cbs.handler .stop = cbs.stopHandler := rfl

end Handler

/-- **A registration**: a handle, together with the number of times the registry
had been cleared when the handle was given out.  Clearing makes handles start
over, so the handle alone does not tell one registration from another. -/
structure Registration where
  handle : ℕ
  epoch : ℕ
  deriving DecidableEq, Repr

/-- What the processor manager does that can be observed from outside, and the decisions it takes.
Functions and measurements appear by their addresses.  The decisions are in the log so that a
theorem about the callbacks can say where in the loop each one stands; `isDecision` tells them
from the calls. -/
inductive Event where
  /-- `init_handler` was called and returned `rc`. -/
  | init (fn handle inst : ℕ) (rc : ℤ)
  /-- `error_handler` was called, without a measurement. -/
  | initError (fn handle inst : ℕ) (code : ℤ)
  /-- The loop body was entered on a record. -/
  | visit (slot : ℕ) (enabled : Bool)
  /-- `evaluate_handler` was called. -/
  | evaluate (fn mes handle inst : ℕ) (result : Bool)
  /-- `matched_handler` was called. -/
  | matched (fn mes handle inst : ℕ) (result : Bool)
  /-- The value of `match` after evaluation. -/
  | verdict (slot : ℕ) (value : ℤ)
  /-- The chain of a record is entered. -/
  | execute (slot : ℕ)
  /-- A handler of the chain was called and returned `rc`; `under` is the
  registration the chain was matched under. -/
  | handler (phase : Phase) (fn mes handle inst : ℕ) (rc : ℤ) (under : Registration)
  /-- `error_handler` was called for a handler of the chain. -/
  | error (phase : Phase) (fn mes handle inst : ℕ) (code : ℤ) (under : Registration)
  /-- The subscriber in block `entry` was called. -/
  | subscriber (entry fn mes handle userData : ℕ) (subscribedTo : Option Registration)
      (under : Registration)
  /-- The chain of a record and its subscribers are done. -/
  | chainDone (slot : ℕ)
  /-- `step_sp_free` was called. -/
  | free (mes : ℕ)
  /-- `step_pm_process` returned. -/
  | returned (rc : ℤ)
  deriving DecidableEq, Repr

/-- The callbacks of a registration. -/
def Event.isInit : Event → Bool
  | .init _ _ _ _ | .initError _ _ _ _ => true
  | _ => false

/-- The callbacks of an evaluation. -/
def Event.isEvaluation : Event → Bool
  | .evaluate _ _ _ _ _ | .matched _ _ _ _ _ => true
  | _ => false

/-- The decisions of the dispatch loop, as opposed to the callbacks. -/
def Event.isDecision : Event → Bool
  | .visit _ _ | .verdict _ _ | .execute _ | .chainDone _ => true
  | _ => false

end StepPipeline
