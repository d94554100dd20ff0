import StepPipeline.Dispatch

/-!
# The dispatcher with and without the filter cache

Both dispatchers take the same steps over the same labels.  What may differ is the
cache itself, the variable `rc` (a hit leaves the code of an earlier evaluation in
it), the calls of `evaluate_handler` that hits save, and the code returned.

* `Sys.blind` — a state with all that left out;
* `LookupAgrees` — the lookup of a visit gives what a fresh evaluation would;
* `sysStep_blind` — a step whose lookup agrees is, seen this way, the step of the
  dispatcher without a cache;
* `run_alike`, `exists_run_withoutCache` — hence so is a run all of whose lookups
  agree.

## Two dispatchers, one set of labels

The build option does not change which steps there are: with and without the cache a visit is one
step that takes one label.  So the two dispatchers can be run on the same labels and compared
state by state, and "the surroundings are the same in both" is simply that the labels are.
`Platform.withFilterCache` is the other build.

What a hit saves is the call of the `evaluate_handler`.  Whether that handler is called cannot be
asked of a cache that is meant to save the call, so it is not observed; neither is `rc`, which
only an evaluation assigns to.  A `matched_handler` is observed: the header promises that it fires
on a match, whoever found the match.
-/

namespace StepPipeline

open IntrusiveList LabelledRun

variable {Ω : Type}

/-! ### What the cache may not change -/

/-- All events but the calls a hit saves and the code returned. -/
def Event.isObserved : Event → Bool
  | .evaluate _ _ _ _ _ | .returned _ => false
  | _ => true

/-- **What is observed of a log**: the visits with their verdicts, the chains
executed, every call of a `matched_handler`, of the handlers of a chain and of the
subscribers, the initialisations and the measurements freed. -/
def observed (log : List Event) : List Event := log.filter Event.isObserved

theorem observed_append (log log' : List Event) :
    observed (log ++ log') = observed log ++ observed log' :=
  List.filter_append ..

theorem observed_visit (slot : ℕ) (enabled : Bool) (log : List Event) :
    observed (.visit slot enabled :: log) = .visit slot enabled :: observed log := rfl

@[simp] theorem observed_observed (log : List Event) : observed (observed log) = observed log := by
  simp [observed]

/-- The statics without the cache. -/
def PmState.blind (pm : PmState Ω) : PmState Ω :=
  { pm with cache := ⟨[], ⟨0, 0, 0, 0, 0⟩⟩ }

/-- The local variables without `rc`. -/
def Proc.blind (p : Proc Ω) : Proc Ω := { p with rc := 0 }

/-- **The state without what the cache may change.** The function forgets rather than relates, so
that "look alike" is an equation and composes by rewriting. -/
def Sys.blind (s : Sys Ω) : Sys Ω :=
  { s with
    pm := s.pm.blind
    proc := s.proc.map Proc.blind
    log := observed s.log }

/-- What a call leaves behind, without the cache. -/
def Outcome.blind (o : Outcome Ω) : Outcome Ω := { o with pm := o.pm.blind }

/-- A verdict without `rc` and the calls a hit saves. -/
def Verdict.blind (v : Verdict) : Verdict :=
  { v with rc := 0, events := observed v.events }

/-- **The lookup agrees with a fresh evaluation** of the record `p` stands at: both leave defined
behaviour in the same way, or they give the same verdict, the same measurement and the same
observed events. -/
def LookupAgrees (P : Platform) (pm : PmState Ω) (p : Proc Ω) (inp : Inputs Ω) : Prop :=
  (lookupVerdict P pm.cache (pm.nodes p.pnode) p.mes p.mesAddr p.rc inp).map
      (fun r => r.1.blind) =
    (evaluateRecord (pm.nodes p.pnode) p.mes p.mesAddr 0 inp).map Verdict.blind

/-- …as a condition on the steps of the system: it concerns the visits of enabled
records. -/
def VisitAgrees (P : Platform) (s : Sys Ω) : Label Ω → Prop
  | .proc inp => ∀ p, s.proc = some p → p.pc = .visit →
      (s.pm.nodes p.pnode).enabled = true → LookupAgrees P s.pm p inp
  | _ => True

/-! ### One step -/

section Step

variable {P : Platform} {pm : PmState Ω} {p : Proc Ω} {inp : Inputs Ω} {s : Sys Ω}

theorem applyMatched_blind (n : StepNode Ω) (mesAddr handle : ℕ) (world : Ω) (v : Verdict)
    (rc : ℤ) :
    (applyMatched n mesAddr handle world { v with rc := rc }).blind =
      (applyMatched n mesAddr handle world v).blind := by
  unfold applyMatched
  split
  · rfl
  · dsimp only
    split <;> rfl

/-- An evaluation passes `rc` on or overwrites it, and reads it nowhere. -/
theorem evaluateRecord_blind (r : StepPmNodeRecord Ω) (mes : StepMeasurement)
    (mesAddr : ℕ) (rc rc' : ℤ) (inp : Inputs Ω) :
    (evaluateRecord r mes mesAddr rc inp).map Verdict.blind =
      (evaluateRecord r mes mesAddr rc' inp).map Verdict.blind := by
  unfold evaluateRecord
  cases r.node with
  | none => rfl
  | some chain =>
      simp only [evaluateNode, evaluateFilter]
      cases chain.head.callbacks.evaluateHandler with
      | none => rfl
      | some f =>
          have hrc := fun v : Verdict => applyMatched_blind chain.head mesAddr r.handle inp.world' v
          refine congrArg Except.ok ?_
          rw [← hrc ⟨_, rc', _, _⟩ rc]

/-- Without a cache every lookup is a fresh evaluation. -/
theorem lookupAgrees_off (hoff : P.filterCache = false) : LookupAgrees P pm p inp := by
  rw [LookupAgrees, lookupVerdict_off hoff, evaluateRecord_blind _ _ _ 0 p.rc]
  cases evaluateRecord (pm.nodes p.pnode) p.mes p.mesAddr p.rc inp <;> rfl

/-- A call of another thread does not look at the cache. -/
theorem apiCall_blind (P : Platform) (pm : PmState Ω) (c : ApiCall Ω) :
    apiCall (P.withFilterCache false) pm.blind c = (apiCall P pm c).blind := by
  have hset : ∀ on handle, stepPmSetEnabled (P.withFilterCache false) pm.blind on handle =
      (stepPmSetEnabled P pm on handle).blind := by
    intro on handle
    unfold stepPmSetEnabled
    rw [apply_ite Outcome.blind, apply_ite Outcome.blind]
    rfl
  cases c with
  | register node pri world =>
      rw [apiCall, apiCall, stepPmRegister, stepPmRegister, apply_ite Outcome.blind,
        apply_ite Outcome.blind]
      rfl
  | clear => rfl
  | enable handle => exact hset true handle
  | disable handle => exact hset false handle
  | subscribe handle cb userData block =>
      unfold apiCall stepPmSubscribeToNode
      dsimp only
      rw [apply_ite Outcome.blind]
      cases block with
      | none => rfl
      | some nc =>
          dsimp only
          rw [apply_ite Outcome.blind]
          rfl

theorem Proc.goOn_blind (p : Proc Ω) (snode : Links ℕ) (next : Option ℕ) :
    (p.goOn snode next).blind = (p.blind.goOn snode next).blind := by
  cases next <;> rfl

theorem Proc.goOnSubs_blind (p : Proc Ω) (subSnode : Links ℕ) (next : Option ℕ) :
    (p.goOnSubs subSnode next).blind = (p.blind.goOnSubs subSnode next).blind := by
  cases next <;> rfl

theorem PmState.account_blind (P : Platform) (pm : PmState Ω) (slot : ℕ)
    (t stop : BitVec 32) :
    (pm.account P slot t stop).blind =
      pm.blind.account (P.withFilterCache false) slot t stop := by
  unfold PmState.account
  rw [apply_ite PmState.blind]
  rfl

/-- Two states look alike if all that is looked at is alike. -/
theorem blind_eq {s t : Sys Ω} (hpm : s.pm.blind = t.pm.blind)
    (hreg : s.regAccess = t.regAccess) (hproc : s.proc.map Proc.blind = t.proc.map Proc.blind)
    (hlog : observed s.log = observed t.log) (hfault : s.fault = t.fault) :
    s.blind = t.blind := by
  unfold Sys.blind
  rw [hpm, hreg, hproc, hlog, hfault]

theorem observed_blind_log (s : Sys Ω) (events : List Event) :
    observed (s.log ++ events) = observed (s.blind.log ++ events) := by
  simp [Sys.blind, observed_append]

theorem crash_blind (s : Sys Ω) (u : UndefinedBehaviour) :
    (s.crash u).blind = (s.blind.crash u).blind :=
  blind_eq rfl rfl (by cases hproc : s.proc <;> simp [Sys.crash, Sys.blind, hproc, Proc.blind])
    (by simp [Sys.crash, Sys.blind]) rfl

/-- Outside the loop body no step looks at the cache or at `rc`. -/
theorem procStep_blind (hpc : p.pc ≠ .visit) :
    (procStep P s p inp).map Sys.blind =
      (procStep (P.withFilterCache false) s.blind p.blind inp).map Sys.blind := by
  unfold procStep
  have hblind : p.blind.pc = p.pc := rfl
  rw [hblind]
  cases hp : p.pc with
  | visit => exact absurd hp hpc
  | lock =>
      dsimp only
      rw [Option.map_map, Option.map_map]
      refine congrFun (congrArg _ (funext fun m => ?_)) _
      exact blind_eq rfl rfl rfl (by simp [Sys.blind]) rfl
  | head =>
      refine congrArg some (blind_eq rfl rfl ?_ (by simp [Sys.blind]) rfl)
      exact congrArg some (Proc.goOn_blind _ _ _)
  | call phase inst n next =>
      dsimp only
      cases n.callbacks.handler phase with
      | none => exact congrArg some (blind_eq rfl rfl rfl (by simp [Sys.blind]) rfl)
      | some f => exact congrArg some (blind_eq rfl rfl rfl (observed_blind_log s _) rfl)
  | error phase inst n next code =>
      dsimp only
      cases n.callbacks.errorHandler with
      | none => exact congrArg some (crash_blind s _)
      | some e => exact congrArg some (blind_eq rfl rfl rfl (observed_blind_log s _) rfl)
  | subsHead =>
      refine congrArg some (blind_eq rfl rfl ?_ (observed_blind_log s _) rfl)
      exact congrArg some (Proc.goOnSubs_blind { p with fetched := s.pm.epoch } _ _)
  | subs entry subsTmp =>
      dsimp only
      have hsubs : s.blind.pm.subs entry = s.pm.subs entry := rfl
      rw [hsubs]
      cases (s.pm.subs entry).cb with
      | none => exact congrArg some (blind_eq rfl rfl rfl (by simp [Sys.blind]) rfl)
      | some f => exact congrArg some (blind_eq rfl rfl rfl (observed_blind_log s _) rfl)
  | subsNext subsTmp =>
      refine congrArg some (blind_eq rfl rfl ?_ (observed_blind_log s _) rfl)
      exact congrArg some (Proc.goOnSubs_blind _ _ _)
  | relock =>
      dsimp only
      rw [Option.map_map, Option.map_map]
      refine congrFun (congrArg _ (funext fun m => ?_)) _
      refine blind_eq ?_ rfl (congrArg some (Proc.goOn_blind _ _ _)) (by simp [Sys.blind]) rfl
      exact (congrArg PmState.blind (PmState.account_blind P s.pm p.pnode p.instr inp.cycles) :)
  | tail =>
      have hreturned : ∀ rc, observed [.returned rc] = [] := fun _ => rfl
      refine congrArg some (blind_eq rfl rfl rfl ?_ rfl)
      simp only [observed_append, hreturned, List.append_nil, Sys.blind, observed_observed]
      rfl

/-- Verdicts that look alike. -/
theorem verdict_blind_eq_iff {v w : Verdict} :
    v.blind = w.blind ↔
      v.value = w.value ∧ v.mes = w.mes ∧ observed v.events = observed w.events := by
  simp [Verdict.blind]

/-- A lookup that agrees fails like the evaluation, or yields a verdict that looks
like the one evaluated. -/
theorem lookupAgrees_iff :
    LookupAgrees P pm p inp ↔
      (∃ u, lookupVerdict P pm.cache (pm.nodes p.pnode) p.mes p.mesAddr p.rc inp = .error u ∧
        evaluateRecord (pm.nodes p.pnode) p.mes p.mesAddr 0 inp = .error u) ∨
      ∃ v cache w,
        lookupVerdict P pm.cache (pm.nodes p.pnode) p.mes p.mesAddr p.rc inp = .ok (v, cache) ∧
        evaluateRecord (pm.nodes p.pnode) p.mes p.mesAddr 0 inp = .ok w ∧
        v.blind = w.blind := by
  rw [LookupAgrees]
  cases lookupVerdict P pm.cache (pm.nodes p.pnode) p.mes p.mesAddr p.rc inp with
  | error u =>
      cases evaluateRecord (pm.nodes p.pnode) p.mes p.mesAddr 0 inp with
      | error u' => simp [Except.map, eq_comm]
      | ok w => simp [Except.map]
  | ok r =>
      obtain ⟨v, cache⟩ := r
      cases evaluateRecord (pm.nodes p.pnode) p.mes p.mesAddr 0 inp with
      | error u' => simp [Except.map]
      | ok w => simp [Except.map]

/-- A hit agrees exactly if a fresh evaluation would give the result found, leave the
measurement alone and call no `matched_handler`. -/
theorem lookupAgrees_hit_iff (hon : P.filterCache = true) {found : StepCacheRec}
    (hfound : pm.cache.lookup p.mes.header.filterBits (pm.nodes p.pnode).handle = some found) :
    LookupAgrees P pm p inp ↔
      ∃ w, evaluateRecord (pm.nodes p.pnode) p.mes p.mesAddr 0 inp = .ok w ∧
        found.result = w.value ∧ p.mes = w.mes ∧ observed w.events = [] := by
  rw [lookupAgrees_iff, lookupVerdict_hit hon hfound]
  constructor
  · rintro (⟨u, hu, -⟩ | ⟨v, cache, w, hv, hw, hvw⟩)
    · cases hu
    · cases hv
      obtain ⟨hvalue, hmes, hevents⟩ := verdict_blind_eq_iff.mp hvw
      exact ⟨w, hw, hvalue, hmes, hevents.symm⟩
  · rintro ⟨w, hw, hvalue, hmes, hevents⟩
    exact Or.inr ⟨_, _, w, rfl, hw, verdict_blind_eq_iff.mpr ⟨hvalue, hmes, hevents.symm⟩⟩

/-- A miss agrees exactly if there is a slot for what it evaluates. -/
theorem lookupAgrees_miss_iff (hon : P.filterCache = true)
    (hmiss : pm.cache.lookup p.mes.header.filterBits (pm.nodes p.pnode).handle = none) :
    LookupAgrees P pm p inp ↔
      ((∃ w, evaluateRecord (pm.nodes p.pnode) p.mes p.mesAddr 0 inp = .ok w) →
        ∃ i, pm.cache.insertSlot = some i) := by
  have hslot : ∀ filter handle, (stepCacheCheck pm.cache filter handle inp.uptime).2.2.insertSlot
      = pm.cache.insertSlot ∨ pm.cache.lookup filter handle ≠ none := by
    intro filter handle
    by_cases hnone : pm.cache.lookup filter handle = none
    · exact Or.inl (insertSlot_congr (stepCacheCheck_miss hnone).2)
    · exact Or.inr hnone
  have hslot := (hslot _ _).resolve_right (not_not.mpr hmiss)
  have hrc := evaluateRecord_blind (pm.nodes p.pnode) p.mes p.mesAddr p.rc 0 inp
  rw [LookupAgrees, lookupVerdict_miss hon hmiss, ← hrc]
  cases heval : evaluateRecord (pm.nodes p.pnode) p.mes p.mesAddr p.rc inp with
  | error u =>
      cases heval' : evaluateRecord (pm.nodes p.pnode) p.mes p.mesAddr 0 inp with
      | error u' => simp [Except.map]
      | ok w => rw [heval, heval'] at hrc; cases hrc
  | ok v =>
      cases heval' : evaluateRecord (pm.nodes p.pnode) p.mes p.mesAddr 0 inp with
      | error u' => rw [heval, heval'] at hrc; cases hrc
      | ok w =>
          simp only [stepCacheAdd, hslot]
          cases pm.cache.insertSlot <;> simp [Except.map]

/-- **The loop body**, when its lookup agrees. -/
theorem visitStep_blind (hagree : (s.pm.nodes p.pnode).enabled = true →
      LookupAgrees P s.pm p inp) :
    (visitStep P s p inp).blind =
      (visitStep (P.withFilterCache false) s.blind p.blind inp).blind := by
  unfold visitStep
  have hnodes : s.blind.pm.nodes p.blind.pnode = s.pm.nodes p.pnode := rfl
  have hoff : lookupVerdict (P.withFilterCache false) s.blind.pm.cache
      (s.pm.nodes p.pnode) p.blind.mes p.blind.mesAddr p.blind.rc inp =
      (evaluateRecord (s.pm.nodes p.pnode) p.mes p.mesAddr 0 inp).map
        fun v => (v, s.blind.pm.cache) := lookupVerdict_off rfl
  rw [hnodes]
  dsimp only
  rw [hoff]
  by_cases hon : (s.pm.nodes p.pnode).enabled = true
  · simp only [hon, if_true]
    rcases lookupAgrees_iff.mp (hagree hon) with ⟨u, hl, hr⟩ | ⟨v, cache, w, hl, hr, hvw⟩
    · rw [hl, hr]
      exact crash_blind s u
    · rw [hl, hr]
      obtain ⟨hvalue, hmes, hevents⟩ := verdict_blind_eq_iff.mp hvw
      have hlog : ∀ rest, observed (s.log ++ (.visit p.pnode true :: v.events ++ rest)) =
          observed (s.blind.log ++ (.visit p.pnode true :: w.events ++ rest)) := by
        intro rest
        rw [← observed_blind_log]
        simp only [List.cons_append, observed_append, observed_visit, hevents]
      dsimp only [Except.map]
      rw [hvalue]
      -- both sides go the same way from here, as they have computed the same value
      by_cases hzero : w.value = 0
      · rw [if_pos hzero, if_pos hzero]
        refine blind_eq rfl rfl ?_ (hlog _) rfl
        simp only [Option.map_some, Proc.blind, hmes]
      · rw [if_neg hzero, if_neg hzero]
        cases (s.pm.nodes p.pnode).node with
        | none => exact crash_blind s _
        | some chain =>
            refine blind_eq rfl rfl ?_ ?_ rfl
            · simp only [Option.map_some, Proc.blind, hmes]
              rfl
            · refine (observed_append _ _).trans ?_
              rw [hlog]
              exact (observed_append _ _).symm
  · simp only [hon]
    refine blind_eq rfl rfl ?_ (observed_blind_log s _) rfl
    exact congrArg some (Proc.goOn_blind _ _ _)

/-- **One step, seen without the cache.** If the lookup of a visit agrees, the step is that of the
dispatcher without a cache.  Only a visit looks at the cache, so the condition is about visits and
all other steps agree by themselves. -/
theorem sysStep_blind {label : Label Ω} (hagree : VisitAgrees P s label) :
    (sysStep P s label).map Sys.blind =
      (sysStep (P.withFilterCache false) s.blind label).map Sys.blind := by
  unfold sysStep
  have hfault : s.blind.fault = s.fault := rfl
  rw [hfault]
  split
  · rfl
  · cases label with
    | process mesAddr mes free =>
        cases hproc : s.proc with
        | none =>
            simp only [Sys.blind, hproc, Option.map_none, Option.map_some, observed_observed]
            rfl
        | some p => simp [Sys.blind, hproc]
    | proc inp =>
        cases hproc : s.proc with
        | none => simp [Sys.blind, hproc]
        | some p =>
            have hblind : s.blind.proc = some p.blind := by rw [Sys.blind, hproc]; rfl
            rw [hblind]
            dsimp only
            by_cases hpc : p.pc = .visit
            · have hpc' : p.blind.pc = .visit := hpc
              rw [procStep_visit hpc, procStep_visit hpc']
              exact congrArg some (visitStep_blind fun hon => hagree p hproc hpc hon)
            · exact procStep_blind hpc
    | other t c =>
        -- the guards of a call read the lock and the heap, which are not blinded
        have hheap : c.heapOk s.blind.pm = c.heapOk s.pm := by cases c <;> rfl
        dsimp only
        rw [hheap]
        by_cases hguard : t = workQueueTid ∨ c.locks ∧ s.regAccess.lock t = none ∨
            ¬c.heapOk s.pm
        · have hguard' : t = workQueueTid ∨ c.locks ∧ s.blind.regAccess.lock t = none ∨
            ¬c.heapOk s.pm := hguard
          rw [if_pos hguard, if_pos hguard']
        · have hguard' : ¬(t = workQueueTid ∨ c.locks ∧ s.blind.regAccess.lock t = none ∨
            ¬c.heapOk s.pm) := hguard
          rw [if_neg hguard, if_neg hguard']
          have hcall : apiCall (P.withFilterCache false) s.blind.pm c =
            (apiCall P s.pm c).blind := apiCall_blind P s.pm c
          rw [hcall]
          refine congrArg some (blind_eq rfl rfl ?_ (observed_blind_log s _) rfl)
          cases hproc : s.proc <;> simp [Sys.afterCall, Sys.blind, hproc, Proc.blind]

end Step

/-! ### Whole runs -/

section Run

variable {P : Platform} {s t : Sys Ω}

/-- The same step of the dispatcher without a cache, from a state that looks
alike. -/
theorem sysStep_alike {label : Label Ω} (hagree : VisitAgrees P s label)
    (hst : s.blind = t.blind) :
    (sysStep P s label).map Sys.blind =
      (sysStep (P.withFilterCache false) t label).map Sys.blind := by
  have hoff : VisitAgrees (P.withFilterCache false) t label := by
    cases label with
    | proc inp => exact fun _ _ _ _ => lookupAgrees_off rfl
    | _ => trivial
  rw [sysStep_blind hagree, hst, sysStep_blind hoff]
  rfl

/-- **A run all of whose lookups agree** is, seen without the cache, the run of the
dispatcher without a cache over the same labels. -/
theorem run_alike {labels : List (Label Ω)}
    (hagree : Meets (sysStep P) (VisitAgrees P) s labels) (hst : s.blind = t.blind) :
    (run (sysStep P) s labels).map Sys.blind =
      (run (sysStep (P.withFilterCache false)) t labels).map Sys.blind := by
  have hstep : ∀ (s t : Sys Ω) (label : Label Ω), s.blind = t.blind →
      VisitAgrees P s label →
      (sysStep P s label).map Sys.blind =
        (sysStep (P.withFilterCache false) t label).map Sys.blind :=
    fun _ _ _ hst hlabel => sysStep_alike hlabel hst
  exact run_lockstep hstep hst hagree

/-- **The run without a cache.** From start-up on, and as long as all lookups agree, the
dispatcher without a cache makes the same run, is observed to do the same, and leaves defined
behaviour where the other one does.  This is the direction of transparency that needs no
divergence argument. -/
theorem exists_run_withoutCache {labels : List (Label Ω)}
    (hagree : Meets (sysStep P) (VisitAgrees P) (Sys.init P) labels)
    (hrun : run (sysStep P) (Sys.init P) labels = some s) :
    ∃ t, run (sysStep (P.withFilterCache false)) (Sys.init (P.withFilterCache false)) labels =
        some t ∧ observed t.log = observed s.log ∧ t.fault = s.fault := by
  have hinit : (Sys.init P : Sys Ω).blind = (Sys.init (P.withFilterCache false)).blind := rfl
  have halike := run_alike hagree hinit
  rw [hrun, Option.map_some, eq_comm, Option.map_eq_some_iff] at halike
  obtain ⟨t, ht, hblind⟩ := halike
  exact ⟨t, ht, congrArg Sys.log hblind, (congrArg Sys.fault hblind :)⟩

end Run

end StepPipeline
