import StepPipeline.RegistrationResult

/-!
# Calls of absent callbacks

All seven callbacks of a node are optional.  Six of them are tested for NULL before they
are called; `error_handler` is called untested, in `step_pm_register` for a failing
`init_handler` and in `step_pm_process` for a failing start, exec or stop handler.

* `CallsNoNull` — no NULL function pointer has been called, and the work-queue thread
  does not stand before such a call;
* `ErrorsHandled` — the condition on a step: **a handler that fails belongs to a node
  with an `error_handler`**;
* `lookupVerdict_ne_nullCall` — cache, filter and evaluation handlers never get there;
* `procStep_callsNoNull` and `afterCall_callsNoNull` — what one step does to it;
* `no_null_call_iff` — a run calls no NULL pointer exactly when all its steps meet the
  condition.

## Before and behind the call

A thread that stands before a call through NULL has already done what leads there, and nothing it
could meet on the way would stop it.  So the property includes the call that lies ahead
(`CallsNoNull.ahead`), and a run that is cut off just before the call does not count as one that
avoids it.

## What the condition does not look at

`ErrorsHandled` evaluates the handler that is called next, on the arguments it will get in the
surroundings it will have, and asks whether its node has an `error_handler` should it fail.  It
does not say that handlers must not fail, and does not mention the call of the `error_handler`.
For a registration it asks the same of all init handlers of the chain.
-/

namespace StepPipeline

open LabelledRun

variable {Ω : Type}

/-! ### The property and the condition -/

/-- The thread is about to call the `error_handler` of a node that has none. -/
def Pc.AtNullCall : Pc Ω → Prop
  | .error _ _ n _ _ => n.callbacks.errorHandler = none
  | _ => False

/-- **No NULL callback is called**, up to and including the call the work-queue thread has ahead. -/
structure CallsNoNull (s : Sys Ω) : Prop where
  done : s.fault ≠ some .nullCall
  ahead : ∀ p, s.proc = some p → ¬p.pc.AtNullCall

/-- **A handler that fails in this step belongs to a node with an `error_handler`**: the
handler of a chain that is called next, or the `init_handler`s of a registration that is
not refused. -/
def ErrorsHandled (P : Platform) (s : Sys Ω) : Label Ω → Prop
  | .process _ _ _ => True
  | .proc inp =>
      ∀ p phase inst n next f, s.proc = some p → p.pc = .call phase inst n next →
        n.callbacks.handler phase = some f →
        (f.code inp.world p.mes (s.pm.nodes p.pnode).handle inst).1 ≠ 0 →
        n.callbacks.errorHandler ≠ none
  | .other _ (.register node _ world) =>
      s.pm.handleCounter ≠ P.nodeLimit → InitsReported (chainInits s.pm node world)
  | .other _ _ => True

/-! ### Evaluation -/

section Evaluation

variable {P : Platform} {n : StepNode Ω} {r : StepPmNodeRecord Ω} {mes : StepMeasurement}
  {mesAddr handle : ℕ} {rc : ℤ} {inp : Inputs Ω} {cache : StepCache} {u : UndefinedBehaviour}

theorem map_eq_error {ε α β : Type*} {f : α → β} {x : Except ε α} {e : ε}
    (h : x.map f = .error e) : x = .error e := by
  cases x with
  | error e' => exact congrArg Except.error (Except.error.inj h)
  | ok a => cases h

theorem stepFiltEvaluateLoop_ne_nullCall {count : ℕ} {fs : List StepFilter} {prev : ℤ}
    (h : stepFiltEvaluateLoop mes count fs prev = .error u) : u ≠ .nullCall := by
  induction count generalizing fs prev with
  | zero => cases h
  | succ count ih =>
      cases fs with
      | nil =>
          obtain rfl := Except.error.inj h
          exact nofun
      | cons f fs => exact ih h

theorem stepFiltEvaluate_ne_nullCall {fc : Option StepFilterChain} {mes : Option StepMeasurement}
    (h : stepFiltEvaluate fc mes = .error u) : u ≠ .nullCall := by
  unfold stepFiltEvaluate at h
  split at h
  · cases h
  · split at h
    · cases h
    · split at h
      · cases h
      · split at h
        · obtain rfl := Except.error.inj h
          exact nofun
        · obtain rfl := Except.error.inj h
          exact nofun
        · split at h
          · cases h
          · exact stepFiltEvaluateLoop_ne_nullCall (map_eq_error h)

/-- An evaluation tests the handlers it calls. -/
theorem evaluateRecord_ne_nullCall (h : evaluateRecord r mes mesAddr rc inp = .error u) :
    u ≠ .nullCall := by
  unfold evaluateRecord at h
  split at h
  · obtain rfl := Except.error.inj h
    exact nofun
  · have hfilter := map_eq_error h
    unfold evaluateFilter at hfilter
    split at hfilter
    · cases hfilter
    · exact stepFiltEvaluate_ne_nullCall (map_eq_error hfilter)

/-- …and so does a lookup. -/
theorem lookupVerdict_ne_nullCall (h : lookupVerdict P cache r mes mesAddr rc inp = .error u) :
    u ≠ .nullCall := by
  cases hon : P.filterCache with
  | false =>
      rw [lookupVerdict_off hon] at h
      exact evaluateRecord_ne_nullCall (map_eq_error h)
  | true =>
      cases hfind : cache.lookup mes.header.filterBits r.handle with
      | some found =>
          rw [lookupVerdict_hit hon hfind] at h
          cases h
      | none =>
          rw [lookupVerdict_miss hon hfind] at h
          cases hv : evaluateRecord r mes mesAddr rc inp with
          | error u' =>
              simp only [hv, Except.error.injEq] at h
              exact h ▸ evaluateRecord_ne_nullCall hv
          | ok v =>
              simp only [hv] at h
              have hadd := map_eq_error h
              unfold stepCacheAdd at hadd
              split at hadd
              · obtain rfl := Except.error.inj hadd
                exact nofun
              · cases hadd

end Evaluation

/-! ### One step -/

section Step

variable {P : Platform} {s s' : Sys Ω} {p p' : Proc Ω} {inp : Inputs Ω} {l : Label Ω}

theorem afterPhase_not_atNullCall (phase : Phase) (inst : ℕ) (n : StepNode Ω)
    (next : List (StepNode Ω)) : ¬(afterPhase phase inst n next).AtNullCall := by
  cases phase with
  | start => exact id
  | exec => exact id
  | stop => cases next <;> exact id

theorem Pc.Locked.not_atNullCall {pc : Pc Ω} (h : pc.Locked) : ¬pc.AtNullCall := by
  intro hnull
  cases pc <;> first | exact h | exact hnull

/-- Without a NULL call behind it, a thread calls none when it does not stand before one. -/
theorem callsNoNull_iff (pm : PmState Ω) (m : KMutex) (p : Proc Ω) (log : List Event)
    {fault : Option UndefinedBehaviour} (hfault : fault ≠ some .nullCall) :
    CallsNoNull ⟨pm, m, some p, log, fault⟩ ↔ ¬p.pc.AtNullCall := by
  constructor
  · exact fun h => h.ahead p rfl
  · exact fun hpc => ⟨hfault, fun q hq => Option.some.inj hq ▸ hpc⟩

theorem callsNoNull_of_proc (hfault : s.fault ≠ some .nullCall) (hproc : s.proc = some p) :
    CallsNoNull s ↔ ¬p.pc.AtNullCall := by
  obtain ⟨pm, m, proc, log, fault⟩ := s
  obtain rfl : proc = some p := hproc
  exact callsNoNull_iff pm m p log hfault

/-- The loop body calls no NULL pointer, whatever the record and the measurement. -/
theorem visitStep_fault (hfault : s.fault ≠ some .nullCall) :
    (visitStep P s p inp).fault ≠ some .nullCall := by
  have hcrash : ∀ u ≠ .nullCall, (s.crash u).fault ≠ some .nullCall :=
    fun u hu h => hu (Option.some.inj h)
  unfold visitStep
  dsimp only
  split
  · cases hv : lookupVerdict P s.pm.cache (s.pm.nodes p.pnode) p.mes p.mesAddr p.rc inp with
    | error u => exact hcrash u (lookupVerdict_ne_nullCall hv)
    | ok r =>
        dsimp only
        split
        · exact hfault
        · split
          · exact hcrash _ nofun
          · exact hfault
  · exact hfault

/-- Outside the chains nothing is called untested. -/
theorem procStep_fault_outside (hfault : s.fault ≠ some .nullCall) (hout : ¬p.pc.InChain)
    (hstep : procStep P s p inp = some s') : s'.fault ≠ some .nullCall := by
  unfold procStep at hstep
  cases hpc : p.pc with
  | lock | relock =>
      simp only [hpc, Option.map_eq_some_iff] at hstep
      obtain ⟨m, -, rfl⟩ := hstep
      exact hfault
  | head | tail =>
      simp only [hpc, Option.some_inj] at hstep
      subst hstep
      exact hfault
  | visit =>
      simp only [hpc, Option.some_inj] at hstep
      subst hstep
      exact visitStep_fault hfault
  | _ => exact absurd (hpc ▸ trivial) hout

theorem Pc.not_atNullCall_of_outside {pc : Pc Ω} (hout : ¬pc.InChain) : ¬pc.AtNullCall := by
  intro hnull
  cases pc with
  | error => exact hout trivial
  | _ => exact hnull

theorem procStep_callsNoNull_outside (hfault : s.fault ≠ some .nullCall)
    (hproc : s.proc = some p) (hout : ¬p.pc.InChain) (hstep : procStep P s p inp = some s') :
    CallsNoNull s' := by
  have hfault' := procStep_fault_outside hfault hout hstep
  have hmove := procStep_move hstep
  cases hmove with
  | crash u =>
      have hproc' : (s.crash u).proc = some p := hproc
      exact (callsNoNull_of_proc hfault' hproc').mpr (Pc.not_atNullCall_of_outside hout)
  | head _ | skip _ _ | relock _ _ _ =>
      exact (callsNoNull_iff _ _ _ _ hfault').mpr (p.goOn_locked _ _).not_atNullCall
  | lock _ _ _ | noMatch _ _ _ _ _ _ | enter _ _ _ _ _ _ _ _ =>
      exact (callsNoNull_iff _ _ _ _ hfault').mpr id
  | chain hin _ _ _ _ _ | chainDone hin _ _ _ => exact absurd hin hout
  | tail _ => exact ⟨hfault', fun _ hq => (by cases hq)⟩

/-- Away from the calls of a chain the condition asks for nothing. -/
theorem errorsHandled_of_ne_call (hproc : s.proc = some p)
    (hcall : ∀ phase inst n next, p.pc ≠ .call phase inst n next) :
    ErrorsHandled P s (.proc inp) := by
  intro q phase inst n next f hq hqpc
  obtain rfl := Option.some.inj (hproc.symm.trans hq)
  exact absurd hqpc (hcall phase inst n next)

/-- At a call it asks for an `error_handler` should the handler fail. -/
theorem errorsHandled_call_iff (hproc : s.proc = some p) {phase : Phase} {inst : ℕ}
    {n : StepNode Ω} {next : List (StepNode Ω)} (hpc : p.pc = .call phase inst n next) :
    ErrorsHandled P s (.proc inp) ↔ ∀ f, n.callbacks.handler phase = some f →
      (f.code inp.world p.mes (s.pm.nodes p.pnode).handle inst).1 ≠ 0 →
      n.callbacks.errorHandler ≠ none := by
  constructor
  · exact fun h f => h p phase inst n next f hproc hpc
  · intro h q phase' inst' n' next' f hq hqpc
    obtain rfl := Option.some.inj (hproc.symm.trans hq)
    rw [hpc] at hqpc
    cases hqpc
    exact h f

/-- **A step of the work-queue thread**: it gets past its calls when no NULL pointer was ahead,
and it does not call a handler that fails without an `error_handler`.  Six of the seven callbacks
drop out at once, since they are tested; the case that is left is a handler of a chain. -/
theorem procStep_callsNoNull (hfault : s.fault = none) (hproc : s.proc = some p)
    (hstep : procStep P s p inp = some s') :
    CallsNoNull s' ↔ CallsNoNull s ∧ ErrorsHandled P s (.proc inp) := by
  have hfault' : s.fault ≠ some .nullCall := by simp [hfault]
  rw [callsNoNull_of_proc hfault' hproc]
  -- away from the calls of a chain both sides hold
  have hquiet : (∀ phase inst n next, p.pc ≠ .call phase inst n next) →
      ¬p.pc.AtNullCall → CallsNoNull s' →
      (CallsNoNull s' ↔ ¬p.pc.AtNullCall ∧ ErrorsHandled P s (.proc inp)) := by
    intro hcall hpc hs'
    exact iff_of_true hs' ⟨hpc, errorsHandled_of_ne_call hproc hcall⟩
  by_cases hin : p.pc.InChain
  · cases procStep_chainMove hin hstep with
    | @skip phase inst n next hpc hnone =>
        refine iff_of_true ?_ ⟨hpc ▸ id, (errorsHandled_call_iff hproc hpc).mpr ?_⟩
        · exact (callsNoNull_iff _ _ _ _ hfault').mpr (afterPhase_not_atNullCall _ _ _ _)
        · exact fun f hf => absurd (hnone.symm.trans hf) (by simp)
    | @call phase inst n next hpc f hsome rc mes hcode =>
        rw [callsNoNull_iff _ _ _ _ hfault', and_iff_right (hpc ▸ id)]
        have hreads : ErrorsHandled P s (.proc inp) ↔
            (rc ≠ 0 → n.callbacks.errorHandler ≠ none) := by
          simp only [errorsHandled_call_iff hproc hpc, hsome, Option.some_inj, forall_eq', hcode]
        rw [hreads]
        by_cases hrc : rc = 0
        · simp [hrc, afterPhase_not_atNullCall]
        · simp [hrc, Pc.AtNullCall]
    | error hpc e hsome mes =>
        refine hquiet (by simp [hpc]) ?_ ?_
        · rw [hpc, Pc.AtNullCall, hsome]
          exact nofun
        · exact (callsNoNull_iff _ _ _ _ hfault').mpr (afterPhase_not_atNullCall _ _ _ _)
    | nullError hpc hnone =>
        refine iff_of_false (fun h => h.done rfl) fun h => h.1 ?_
        rw [hpc]
        exact hnone
    | fetch hpc =>
        refine hquiet (by simp [hpc]) (hpc ▸ id) ((callsNoNull_iff _ _ _ _ hfault').mpr ?_)
        cases (s.pm.nodes p.pnode).subCallbacks.head <;> exact id
    | skipSub hpc _ =>
        exact hquiet (by simp [hpc]) (hpc ▸ id) ((callsNoNull_iff _ _ _ _ hfault').mpr id)
    | callSub hpc f _ mes =>
        exact hquiet (by simp [hpc]) (hpc ▸ id) ((callsNoNull_iff _ _ _ _ hfault').mpr id)
    | @nextSub subsTmp hpc =>
        refine hquiet (by simp [hpc]) (hpc ▸ id) ((callsNoNull_iff _ _ _ _ hfault').mpr ?_)
        cases subsTmp <;> exact id
  · refine hquiet ?_ (Pc.not_atNullCall_of_outside hin) ?_
    · exact fun _ _ _ _ hpc => hin (hpc ▸ trivial)
    · exact procStep_callsNoNull_outside hfault' hproc hin hstep

/-- The initialisation of a chain leaves defined behaviour in one way only. -/
theorem initLoop_nullCall_iff (handle : ℕ) (world : ℕ → Ω) (inst : ℕ) (ns : List (StepNode Ω))
    (rc : ℤ) (events : List Event) :
    (initLoop handle world inst ns rc events).fault ≠ some .nullCall ↔
      InitsReported (initCalls handle world inst ns) := by
  have hcases : (initLoop handle world inst ns rc events).fault = none ∨
      (initLoop handle world inst ns rc events).fault = some .nullCall := by
    fun_induction initLoop handle world inst ns rc events with
    | case1 => exact Or.inl rfl
    | case4 => exact Or.inr rfl
    | case2 _ _ _ _ _ _ ih | case3 _ _ _ _ _ _ _ _ _ _ ih
    | case5 _ _ _ _ _ _ _ _ _ _ _ _ ih => exact ih
  rw [← initLoop_fault_iff]
  rcases hcases with hnone | hnull
  · exact iff_of_true (by simp [hnone]) hnone
  · exact iff_of_false (by simp [hnull]) (by simp [hnull])

/-- **A call of the registry interface**: only a registration can get to a NULL pointer. -/
theorem apiCall_nullCall_iff (hle : s.pm.handleCounter ≤ P.nodeLimit) (t : Tid)
    (c : ApiCall Ω) :
    (apiCall P s.pm c).fault ≠ some .nullCall ↔ ErrorsHandled P s (.other t c) := by
  cases c with
  | register node pri world =>
      rw [apiCall, ErrorsHandled]
      rcases hle.eq_or_lt with hfull | hlimit
      · rw [stepPmRegister_full hfull]
        exact iff_of_true (by simp) fun hne => absurd hfull hne
      · rw [stepPmRegister_below hlimit, forall_prop_of_true hlimit.ne]
        exact initLoop_nullCall_iff _ _ _ _ _ _
  | clear => exact iff_of_true (by simp [apiCall, stepPmClear, Outcome.ret]) trivial
  | enable handle | disable handle =>
      refine iff_of_true ?_ trivial
      simp only [apiCall, stepPmEnableNode, stepPmDisableNode, stepPmSetEnabled]
      split
      · simp [Outcome.ret]
      · split <;> simp [Outcome.ret, Outcome.outOfBounds]
  | subscribe handle cb userData block =>
      refine iff_of_true ?_ trivial
      simp only [apiCall, stepPmSubscribeToNode]
      split
      · simp [Outcome.ret]
      · cases block with
        | none => simp [Outcome.ret]
        | some nc => dsimp only; split <;> simp [Outcome.ret, Outcome.outOfBounds]

/-- **The step lemma.** -/
theorem sysStep_callsNoNull (h : SysInvariant P s) (hstep : sysStep P s l = some s') :
    CallsNoNull s' ↔ CallsNoNull s ∧ ErrorsHandled P s l := by
  obtain ⟨hfault, hmove⟩ := sysStep_move hstep
  have hfault' : s.fault ≠ some .nullCall := by simp [hfault]
  cases hmove with
  | process mesAddr mes free hproc =>
      refine iff_of_true ((callsNoNull_iff _ _ _ _ hfault').mpr id) ⟨⟨hfault', ?_⟩, trivial⟩
      exact fun p hp => by simp [hproc] at hp
  | @proc inp p _ hproc _ =>
      exact procStep_callsNoNull hfault hproc (procStep_of_sysStep hstep hproc)
  | other t c _ _ _ =>
      obtain ⟨regs, l, hrep⟩ := h.registry
      rw [← apiCall_nullCall_iff hrep.counter_le t c]
      -- the thread stands where it stood
      constructor
      · exact fun hafter => ⟨⟨hfault', hafter.ahead⟩, hafter.done⟩
      · exact fun hbefore => ⟨hbefore.2, hbefore.1.ahead⟩

end Step

/-! ### Whole runs -/

/-- **When no NULL callback is called**: in a run of any calls and processed measurements,
exactly when every handler that fails belongs to a node with an `error_handler`. -/
theorem no_null_call_iff (P : Platform) {labels : List (Label Ω)} {s : Sys Ω}
    (hrun : run (sysStep P) (Sys.init P) labels = some s) :
    CallsNoNull s ↔ Meets (sysStep P) (ErrorsHandled P) (Sys.init P) labels := by
  rw [holds_iff_meets (fun _ _ _ hI hstep => sysStep_invariant hI hstep)
    (fun _ _ _ hI hstep => sysStep_callsNoNull hI hstep) (sysInvariant_init P) hrun]
  exact and_iff_right ⟨by simp [Sys.init], fun _ hq => (by cases hq)⟩

/-- A node whose exec handler returns -1, with an `error_handler`. -/
def reportingChain : StepNodeChain Unit :=
  ⟨⟨.catchAll, { StepNodeCallbacks.none with
    execHandler := some ⟨100, fun _ mes _ _ => (-1, mes)⟩
    errorHandler := some ⟨200, fun _ mes _ _ _ => mes⟩ }, 0⟩, []⟩

/-- The node is registered, a measurement comes, and the dispatch returns. -/
def reportingRun : List (Label Unit) :=
  .other 1 (.register reportingChain 1 fun _ => ()) ::
    .process 64 ⟨⟨0#32, 0#32, 0#32⟩, []⟩ false :: List.replicate 10 (.proc ⟨(), (), 1, 0#32⟩)

/-- **The failure is reported**: the exec handler fails and the `error_handler` is called, no call
goes to NULL, and so every handler that has failed has one. -/
theorem no_null_call_iff_reported :
    ∃ s, run (sysStep Platform.tests) (Sys.init Platform.tests) reportingRun = some s ∧
      .error .exec 200 64 0 0 (-1) ⟨0, 0⟩ ∈ s.log ∧ .returned 0 ∈ s.log ∧ CallsNoNull s ∧
        Meets (sysStep Platform.tests) (ErrorsHandled Platform.tests) (Sys.init Platform.tests)
          reportingRun := by
  obtain ⟨s, hrun, herror, hreturned, hfault, hproc⟩ : ∃ s,
      run (sysStep Platform.tests) (Sys.init Platform.tests) reportingRun = some s ∧
        .error .exec 200 64 0 0 (-1) ⟨0, 0⟩ ∈ s.log ∧ .returned 0 ∈ s.log ∧
        s.fault ≠ some .nullCall ∧ s.proc = none :=
    ⟨_, rfl, by decide, by decide, by decide, rfl⟩
  have hcalls : CallsNoNull s := ⟨hfault, fun p hp => by simp [hproc] at hp⟩
  exact ⟨s, hrun, herror, hreturned, hcalls, (no_null_call_iff Platform.tests hrun).mp hcalls⟩

/-- A node whose exec handler returns -1, without an `error_handler`. -/
def mutelyFailingChain : StepNodeChain Unit :=
  ⟨⟨.catchAll, { StepNodeCallbacks.none with
    execHandler := some ⟨100, fun _ mes _ _ => (-1, mes)⟩ }, 0⟩, []⟩

/-- The node is registered and a measurement comes, up to the call of the exec handler. -/
def mutelyFailingRun : List (Label Unit) :=
  let tick : Label Unit := .proc ⟨(), (), 1, 0#32⟩
  [.other 1 (.register mutelyFailingChain 1 fun _ => ()),
    .process 64 ⟨⟨0#32, 0#32, 0#32⟩, []⟩ false, tick, tick, tick, tick]

/-- **A NULL call**: the exec handler fails, and `error_handler` is called without a test. -/
theorem null_error_handler_called :
    ∃ s, run (sysStep Platform.tests) (Sys.init Platform.tests)
        (mutelyFailingRun ++ [.proc ⟨(), (), 1, 0#32⟩, .proc ⟨(), (), 1, 0#32⟩]) = some s ∧
      s.fault = some .nullCall ∧ ¬CallsNoNull s :=
  ⟨_, rfl, rfl, fun h => h.done rfl⟩

end StepPipeline
