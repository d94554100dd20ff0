import StepPipeline.Dispatch

/-!
# What a registration reports, and what it leaves behind

`step_pm_register` enters the chain in the registry and then runs the `init_handler`s
of its nodes, with one status variable for all of them.

* `InitCall` and `chainInits` — the `init_handler`s present in a chain, with what they
  return;
* `initLoop_fault_iff` and `initLoop_rc` — the loop calls no NULL pointer when every
  failure has an `error_handler` to go to, and then leaves the code of the **last**
  handler;
* `Entered` — a chain has got its record, and the record is in the list;
* `registration_reports_iff` — when every failure is reported: unless one is followed by
  a handler that succeeds, or meets a missing `error_handler`;
* `failed_registration_atomic_iff` — when a failure leaves the registry alone: unless
  it is a failure of initialisation, which comes after the insertion.
-/

namespace StepPipeline

open LabelledRun

variable {Ω : Type}

/-! ### The init handlers of a chain -/

/-- An `init_handler` that is present: its node, and the code it returns. -/
structure InitCall (Ω : Type) where
  node : StepNode Ω
  code : ℤ

/-- The `init_handler`s of the nodes `ns`, the first of which is instance `inst`.  Each is given
with the code it returns in its surroundings, so that conditions on failures can be read off the
list without running the registration. -/
def initCalls (handle : ℕ) (world : ℕ → Ω) : ℕ → List (StepNode Ω) → List (InitCall Ω)
  | _, [] => []
  | inst, n :: ns =>
      match n.callbacks.initHandler with
      | none => initCalls handle world (inst + 1) ns
      | some f =>
          ⟨n, f.code (world inst) n.config handle inst⟩ :: initCalls handle world (inst + 1) ns

/-- The `init_handler`s of a chain registered in the state `s`. -/
def chainInits (s : PmState Ω) (node : StepNodeChain Ω) (world : ℕ → Ω) : List (InitCall Ω) :=
  initCalls s.handleCounter world 0 (node.head :: node.rest)

/-- Every `init_handler` returns 0. -/
def InitsSucceed (inits : List (InitCall Ω)) : Prop :=
  ∀ c ∈ inits, c.code = 0

/-- Every `init_handler` that fails belongs to a node with an `error_handler`.  Where this is not
so the registration calls a NULL pointer, and does not return. -/
def InitsReported (inits : List (InitCall Ω)) : Prop :=
  ∀ c ∈ inits, c.code ≠ 0 → c.node.callbacks.errorHandler ≠ none

/-- The code of the last `init_handler`, or `rc` if there is none.  It is what is left in the one
variable all of them are assigned to. -/
def lastCode (inits : List (InitCall Ω)) (rc : ℤ) : ℤ :=
  (inits.map InitCall.code).getLastD rc

section Loop

variable {handle : ℕ} {world : ℕ → Ω} {inst : ℕ} {ns : List (StepNode Ω)} {rc : ℤ}
  {events : List Event} {c : InitCall Ω} {inits : List (InitCall Ω)}

@[simp] theorem lastCode_cons : lastCode (c :: inits) rc = lastCode inits c.code := by
  rw [lastCode, List.map_cons, List.getLastD_cons, lastCode]

theorem lastCode_of_succeed (h : InitsSucceed inits) : lastCode inits 0 = 0 := by
  induction inits with
  | nil => rfl
  | cons c inits ih =>
      rw [lastCode_cons, h c List.mem_cons_self]
      exact ih fun d hd => h d (List.mem_cons_of_mem c hd)

/-- **A registration survives its initialisation** when no failure meets a missing
`error_handler`. -/
theorem initLoop_fault_iff :
    (initLoop handle world inst ns rc events).fault = none ↔
      InitsReported (initCalls handle world inst ns) := by
  induction ns generalizing inst rc events with
  | nil => exact iff_of_true rfl fun _ hc => absurd hc List.not_mem_nil
  | cons n ns ih =>
      rw [initLoop, initCalls]
      cases n.callbacks.initHandler with
      | none => exact ih
      | some f =>
          dsimp only
          by_cases hzero : f.code (world inst) n.config handle inst = 0
          · rw [if_pos hzero, ih, InitsReported, InitsReported, List.forall_mem_cons]
            exact (and_iff_right fun hne => absurd hzero hne).symm
          · rw [if_neg hzero, InitsReported, List.forall_mem_cons]
            cases herror : n.callbacks.errorHandler with
            | none => exact iff_of_false (by simp) fun h => h.1 hzero rfl
            | some e =>
                dsimp only
                rw [ih, InitsReported]
                exact (and_iff_right fun _ h => by cases h).symm

/-- **The status variable is reused**: what is left in it is the last code. -/
theorem initLoop_rc (h : (initLoop handle world inst ns rc events).fault = none) :
    (initLoop handle world inst ns rc events).rc =
      lastCode (initCalls handle world inst ns) rc := by
  induction ns generalizing inst rc events with
  | nil => rfl
  | cons n ns ih =>
      rw [initLoop] at h ⊢
      rw [initCalls]
      cases hinit : n.callbacks.initHandler with
      | none =>
          simp only [hinit] at h ⊢
          exact ih h
      | some f =>
          simp only [hinit, lastCode_cons] at h ⊢
          by_cases hzero : f.code (world inst) n.config handle inst = 0
          · rw [if_pos hzero] at h ⊢
            exact ih h
          · rw [if_neg hzero] at h ⊢
            cases herror : n.callbacks.errorHandler with
            | none => simp [herror] at h
            | some e =>
                simp only [herror] at h ⊢
                exact ih h

end Loop

/-! ### The outcome of a registration -/

/-- The call returns, with the code `rc`. -/
def Outcome.Returns (o : Outcome Ω) (rc : ℤ) : Prop :=
  o.fault = none ∧ o.rc = rc

/-- **The chain has been entered in the registry**: it was given the next handle, the record of
that handle points to it, and the record is in the list.  It will be dispatched to, whatever its
initialisation has returned. -/
structure Entered (P : Platform) (s : PmState Ω) (node : StepNodeChain Ω) (o : Outcome Ω) :
    Prop where
  handle : o.handle = some s.handleCounter
  counter : o.pm.handleCounter = s.handleCounter + 1
  listed : s.handleCounter ∈ o.pm.listed P
  node : (o.pm.nodes s.handleCounter).node = some node

section Register

variable {P : Platform} {s : PmState Ω} {regs : List (StepNodeChain Ω × ℕ)} {l : List ℕ}
  {rc : ℤ}

/-- A full registry refuses the chain and stays as it is. -/
theorem stepPmRegister_full (hfull : s.handleCounter = P.nodeLimit) (node : StepNodeChain Ω)
    (pri : ℕ) (world : ℕ → Ω) :
    stepPmRegister P s node pri world = ⟨s, negEnomem, some 0xFFFFFFFF, [], none⟩ :=
  if_pos hfull

/-- Otherwise the chain gets its record first and is initialised afterwards. -/
theorem stepPmRegister_below (hlimit : s.handleCounter < P.nodeLimit)
    (node : StepNodeChain Ω) (pri : ℕ) (world : ℕ → Ω) :
    let init := initLoop s.handleCounter world 0 (node.head :: node.rest) 0 []
    stepPmRegister P s node pri world =
      ⟨s.addRecord P node pri, init.rc, some s.handleCounter, init.events, init.fault⟩ := by
  rw [stepPmRegister, if_neg hlimit.ne, if_neg (not_lt.mpr hlimit.le)]

/-- Below the limit a registration returns the code of the last `init_handler`, if it
returns at all. -/
theorem returns_below_iff (hlimit : s.handleCounter < P.nodeLimit) (node : StepNodeChain Ω)
    (pri : ℕ) (world : ℕ → Ω) :
    (stepPmRegister P s node pri world).Returns rc ↔
      InitsReported (chainInits s node world) ∧ lastCode (chainInits s node world) 0 = rc := by
  rw [stepPmRegister_below hlimit, Outcome.Returns, chainInits, ← initLoop_fault_iff]
  exact and_congr_right fun hfault => by rw [initLoop_rc hfault]

/-- Below the limit the chain is entered, whatever its initialisation does. -/
theorem Represents.entered (h : Represents P s regs l) (hlimit : s.handleCounter < P.nodeLimit)
    (node : StepNodeChain Ω) (pri : ℕ) (world : ℕ → Ω) :
    Entered P s node (stepPmRegister P s node pri world) := by
  obtain ⟨l', hext, hrep⟩ := h.add (h.counter_eq ▸ hlimit) node pri
  rw [stepPmRegister_below hlimit]
  refine ⟨rfl, rfl, ?_, ?_⟩
  · rw [hrep.listed_eq, hext.mem_iff]
    exact Or.inl rfl
  · simp [PmState.addRecord, PmState.fillRecord, newRecord]

/-- A full registry takes in nothing. -/
theorem not_entered_of_full (hfull : s.handleCounter = P.nodeLimit) (node : StepNodeChain Ω)
    (pri : ℕ) (world : ℕ → Ω) :
    ¬Entered P s node (stepPmRegister P s node pri world) := by
  intro h
  have hcounter := h.counter
  rw [stepPmRegister_full hfull] at hcounter
  exact absurd hcounter (Nat.lt_succ_self _).ne

end Register

/-! ### Every failure is reported -/

/-- **A registration reports every failure**: it returns 0 exactly when the chain was
entered and all its `init_handler`s returned 0, and it returns a code other than 0 when one
of them failed.

The second part asks for a return.  A call that goes through the missing `error_handler` of
a node whose `init_handler` failed does not return 0 either, but it reports nothing. -/
def ReportsFailures (P : Platform) (s : PmState Ω) (node : StepNodeChain Ω) (pri : ℕ)
    (world : ℕ → Ω) : Prop :=
  let o := stepPmRegister P s node pri world
  (o.Returns 0 ↔ Entered P s node o ∧ InitsSucceed (chainInits s node world)) ∧
    (¬InitsSucceed (chainInits s node world) → ∃ rc, o.Returns rc ∧ rc ≠ 0)

/-- **When a registration reports every failure**: when the registry is full, or every
`init_handler` succeeds, or the last one is among those that fail and each that fails has
an `error_handler` to be passed to. -/
theorem registration_reports_iff (P : Platform) {labels : List (Label Ω)} {s : Sys Ω}
    (hrun : run (sysStep P) (Sys.init P) labels = some s) (node : StepNodeChain Ω) (pri : ℕ)
    (world : ℕ → Ω) :
    ReportsFailures P s.pm node pri world ↔
      s.pm.handleCounter = P.nodeLimit ∨
      InitsSucceed (chainInits s.pm node world) ∨
      (InitsReported (chainInits s.pm node world) ∧
        lastCode (chainInits s.pm node world) 0 ≠ 0) := by
  obtain ⟨regs, l, hrep⟩ := (run_sysInvariant (sysInvariant_init P) hrun).registry
  rcases hrep.counter_le.eq_or_lt with hfull | hlimit
  · -- the refusal is a return with -ENOMEM, before any `init_handler` is looked at
    have hcode : negEnomem ≠ 0 := by decide
    have hreturns : ∀ rc, (stepPmRegister P s.pm node pri world).Returns rc ↔ negEnomem = rc := by
      intro rc
      rw [stepPmRegister_full hfull]
      exact and_iff_right rfl
    refine iff_of_true ⟨?_, fun _ => ⟨negEnomem, (hreturns _).mpr rfl, hcode⟩⟩ (Or.inl hfull)
    exact iff_of_false (fun h => hcode ((hreturns 0).mp h))
      fun h => not_entered_of_full hfull node pri world h.1
  · have hentered := hrep.entered hlimit node pri world
    simp only [ReportsFailures, returns_below_iff hlimit, hentered, true_and, hlimit.ne, false_or]
    set inits := chainInits s.pm node world
    by_cases hsucceed : InitsSucceed inits
    · have hreported : InitsReported inits := fun c hc hne => absurd (hsucceed c hc) hne
      simp [hsucceed, hreported, lastCode_of_succeed hsucceed]
    · simp only [hsucceed, iff_false, not_false_eq_true, true_implies, false_or]
      constructor
      · rintro ⟨-, rc, ⟨hreported, rfl⟩, hne⟩
        exact ⟨hreported, hne⟩
      · rintro ⟨hreported, hne⟩
        exact ⟨fun h => hne h.2, _, ⟨hreported, rfl⟩, hne⟩

/-- A node whose `init_handler` returns `code`, with an `error_handler`. -/
def initNode (code : ℤ) : StepNode Unit where
  filters := .catchAll
  callbacks :=
    { StepNodeCallbacks.none with
      initHandler := some ⟨0x100, fun _ _ _ _ => code⟩
      errorHandler := some ⟨0x200, fun _ mes _ _ _ => mes⟩ }
  config := 0

/-- Another thread registers a chain first. -/
def oneRegistered : List (Label Unit) := [.other 1 (.register silentChain 1 fun _ => ())]

/-- The next chain is a node that fails alone. -/
theorem registration_reports_iff_single :
    ∃ s, run (sysStep Platform.tests) (Sys.init Platform.tests) oneRegistered = some s ∧
      (ReportsFailures Platform.tests s.pm ⟨initNode (-1), []⟩ 0 (fun _ => ()) ↔
        s.pm.handleCounter = Platform.tests.nodeLimit ∨
        InitsSucceed (chainInits s.pm ⟨initNode (-1), []⟩ fun _ => ()) ∨
        (InitsReported (chainInits s.pm ⟨initNode (-1), []⟩ fun _ => ()) ∧
          lastCode (chainInits s.pm ⟨initNode (-1), []⟩ fun _ => ()) 0 ≠ 0)) :=
  have hrun : run (sysStep Platform.tests) (Sys.init Platform.tests) oneRegistered = some _ := rfl
  ⟨_, hrun, registration_reports_iff Platform.tests hrun _ _ _⟩

/-- **A failure followed by a success is lost**: the first of two nodes fails, the second
one does not, and the registration returns 0. -/
theorem failure_is_lost :
    ∃ s, run (sysStep Platform.tests) (Sys.init Platform.tests) [] = some s ∧
      ¬ReportsFailures Platform.tests s.pm ⟨initNode (-1), [initNode 0]⟩ 0 fun _ => () := by
  refine ⟨_, rfl, fun h => ?_⟩
  have hsucceed := (h.1.mp ⟨rfl, rfl⟩).2
  exact absurd (hsucceed _ List.mem_cons_self) (by decide : (-1 : ℤ) ≠ 0)

/-! ### A failed registration leaves nothing behind -/

/-- **A failed registration is atomic**: when it returns anything but 0, the statics are those
from before the call. -/
def FailsAtomically (P : Platform) (s : PmState Ω) (node : StepNodeChain Ω) (pri : ℕ)
    (world : ℕ → Ω) : Prop :=
  ∀ rc ≠ 0, (stepPmRegister P s node pri world).Returns rc →
    (stepPmRegister P s node pri world).pm = s

/-- **When a failed registration is atomic**: when the registry is full, or the call does
not fail for the last `init_handler`, or it does not return. -/
theorem failed_registration_atomic_iff (P : Platform) {labels : List (Label Ω)} {s : Sys Ω}
    (hrun : run (sysStep P) (Sys.init P) labels = some s) (node : StepNodeChain Ω) (pri : ℕ)
    (world : ℕ → Ω) :
    FailsAtomically P s.pm node pri world ↔
      s.pm.handleCounter = P.nodeLimit ∨
      ¬InitsReported (chainInits s.pm node world) ∨
      lastCode (chainInits s.pm node world) 0 = 0 := by
  obtain ⟨regs, l, hrep⟩ := (run_sysInvariant (sysInvariant_init P) hrun).registry
  rcases hrep.counter_le.eq_or_lt with hfull | hlimit
  · refine iff_of_true (fun rc _ _ => ?_) (Or.inl hfull)
    rw [stepPmRegister_full hfull]
  · have hchanged : (stepPmRegister P s.pm node pri world).pm ≠ s.pm := by
      intro heq
      have hcounter := (hrep.entered hlimit node pri world).counter
      rw [heq] at hcounter
      exact absurd hcounter (Nat.lt_succ_self _).ne
    simp only [FailsAtomically, returns_below_iff hlimit, hchanged, imp_false, hlimit.ne,
      false_or]
    constructor
    · intro h
      by_cases hzero : lastCode (chainInits s.pm node world) 0 = 0
      · exact Or.inr hzero
      · exact Or.inl fun hreported => h _ hzero ⟨hreported, rfl⟩
    · rintro (hcrash | hzero) rc hrc ⟨hreported, rfl⟩
      · exact hcrash hreported
      · exact hrc hzero

/-- The chain registered next is a node that fails. -/
theorem failed_registration_atomic_iff_single :
    ∃ s, run (sysStep Platform.tests) (Sys.init Platform.tests) oneRegistered = some s ∧
      (FailsAtomically Platform.tests s.pm ⟨initNode (-1), []⟩ 0 (fun _ => ()) ↔
        s.pm.handleCounter = Platform.tests.nodeLimit ∨
        ¬InitsReported (chainInits s.pm ⟨initNode (-1), []⟩ fun _ => ()) ∨
        lastCode (chainInits s.pm ⟨initNode (-1), []⟩ fun _ => ()) 0 = 0) :=
  have hrun : run (sysStep Platform.tests) (Sys.init Platform.tests) oneRegistered = some _ := rfl
  ⟨_, hrun, failed_registration_atomic_iff Platform.tests hrun _ _ _⟩

/-- **A node that fails to initialise stays registered**: the call returns -1, and the
handle counter has moved on. -/
theorem failed_node_registered :
    ∃ s, run (sysStep Platform.tests) (Sys.init Platform.tests) [] = some s ∧
      ¬FailsAtomically Platform.tests s.pm ⟨initNode (-1), []⟩ 0 fun _ => () := by
  refine ⟨_, rfl, fun h => ?_⟩
  have hsame := congrArg PmState.handleCounter (h (-1) (by decide) ⟨rfl, rfl⟩)
  exact absurd hsame (by decide)

end StepPipeline
