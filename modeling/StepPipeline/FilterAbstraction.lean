import StepPipeline.Broker

/-!
# Filter chains are what they accept

When a filter chain may be replaced by another one, a shorter or a canonical one say: exactly if
`step_filt_evaluate` gives the same verdict and the same return code for both.

* `SameVerdicts` — it does, for every measurement;
* `Label.refilter` and `Sys.refilter` — everywhere in a program, and in a state of the system,
  the filters are replaced by those `g` says;
* `sysStep_refilter` — **with the same verdicts the system takes the same steps**, in every
  state and whoever moves;
* `sameVerdicts_iff` — **full abstraction**: two filter chains have the same verdicts if and only
  if no program can tell them apart whose callbacks do not look at filters.

## What a callback may look at

A node is handed out by `step_pm_node_get`, and its filters are a member of the structure, so
a callback could read `filters.count` and answer with it; nothing less than the same chain
would do for such a program.  The callbacks of this model are functions of their surroundings,
of the measurement and of the handle, and the surroundings `Ω` stay as they are when filters
are replaced.  They stand for callbacks that leave the filters of nodes to
`step_filt_evaluate`.
-/

namespace StepPipeline

open IntrusiveList LabelledRun

variable {Ω : Type}

/-- **The same verdicts** and the same return codes, for every measurement.  This is the equality
of filters as a user of the interface could define it, since nothing else of a filter chain
reaches the dispatcher. -/
def SameVerdicts (fc fc' : StepFilterChain) : Prop :=
  ∀ mes, stepFiltEvaluate (some fc') (some mes) = stepFiltEvaluate (some fc) (some mes)

/-! ### Replacing filters -/

section Refilter

variable (g : StepFilterChain → StepFilterChain)

def StepNode.refilter (n : StepNode Ω) : StepNode Ω := { n with filters := g n.filters }

def StepNodeChain.refilter (chain : StepNodeChain Ω) : StepNodeChain Ω :=
  ⟨chain.head.refilter g, chain.rest.map (StepNode.refilter g)⟩

def StepPmNodeRecord.refilter (r : StepPmNodeRecord Ω) : StepPmNodeRecord Ω :=
  { r with node := r.node.map (StepNodeChain.refilter g) }

def PmState.refilter (pm : PmState Ω) : PmState Ω :=
  { pm with nodes := fun i => (pm.nodes i).refilter g }

def Outcome.refilter (o : Outcome Ω) : Outcome Ω := { o with pm := o.pm.refilter g }

def ApiCall.refilter : ApiCall Ω → ApiCall Ω
  | .register node pri world => .register (node.refilter g) pri world
  | c => c

def Pc.refilter : Pc Ω → Pc Ω
  | .call phase inst n next => .call phase inst (n.refilter g) (next.map (StepNode.refilter g))
  | .error phase inst n next code =>
      .error phase inst (n.refilter g) (next.map (StepNode.refilter g)) code
  | pc => pc

def Proc.refilter (p : Proc Ω) : Proc Ω := { p with pc := p.pc.refilter g }

/-- **The filters are replaced** in all chains that are registered or being executed.  Handlers,
configuration and everything else stay as they are. -/
def Sys.refilter (s : Sys Ω) : Sys Ω :=
  { s with pm := s.pm.refilter g, proc := s.proc.map (Proc.refilter g) }

/-- …and in all chains that are to be registered. -/
def Label.refilter : Label Ω → Label Ω
  | .other t c => .other t (c.refilter g)
  | l => l

end Refilter

/-! ### The same steps -/

section Steps

variable {P : Platform} {g : StepFilterChain → StepFilterChain} {s : Sys Ω} {p : Proc Ω}
  {inp : Inputs Ω}

/-- **The verdict on a record** does not change. -/
theorem lookupVerdict_refilter (hg : ∀ fc, SameVerdicts fc (g fc)) (cache : StepCache)
    (r : StepPmNodeRecord Ω) (mes : StepMeasurement) (mesAddr : ℕ) (rc : ℤ) :
    lookupVerdict P cache (r.refilter g) mes mesAddr rc inp =
      lookupVerdict P cache r mes mesAddr rc inp := by
  have hfilter : ∀ n : StepNode Ω, evaluateNode (n.refilter g) mes mesAddr r.handle rc inp =
      evaluateNode n mes mesAddr r.handle rc inp := by
    intro n
    simp only [evaluateNode, evaluateFilter, StepNode.refilter, hg n.filters mes]
    rfl
  have hrecord : evaluateRecord (r.refilter g) mes mesAddr rc inp =
      evaluateRecord r mes mesAddr rc inp := by
    unfold evaluateRecord StepPmNodeRecord.refilter
    cases r.node with
    | none => rfl
    | some chain => exact hfilter chain.head
  simp only [lookupVerdict, hrecord]
  rfl

/-- The initialisation does not read the filters. -/
theorem initLoop_refilter (handle : ℕ) (world : ℕ → Ω) (inst : ℕ) (ns : List (StepNode Ω))
    (rc : ℤ) (events : List Event) :
    initLoop handle world inst (ns.map (StepNode.refilter g)) rc events =
      initLoop handle world inst ns rc events := by
  induction ns generalizing inst rc events with
  | nil => rfl
  | cons n ns ih =>
      rw [List.map_cons, initLoop, initLoop]
      simp only [StepNode.refilter, ih]

/-- Writing a record. -/
theorem refilter_update (nodes : ℕ → StepPmNodeRecord Ω) (i : ℕ) (r : StepPmNodeRecord Ω) :
    Function.update (fun j => (nodes j).refilter g) i (r.refilter g) =
      fun j => (Function.update nodes i r j).refilter g :=
  (Function.comp_update (StepPmNodeRecord.refilter g) nodes i r).symm

theorem addRecord_refilter (pm : PmState Ω) (node : StepNodeChain Ω) (pri : ℕ) :
    (pm.refilter g).addRecord P (node.refilter g) pri = (pm.addRecord P node pri).refilter g := by
  have hfill : (pm.refilter g).fillRecord (node.refilter g) pri =
      (pm.fillRecord node pri).refilter g :=
    congrArg (fun nodes => { pm.fillRecord node pri with nodes := nodes })
      (refilter_update pm.nodes pm.handleCounter (newRecord node pri pm.handleCounter))
  exact congrArg (fun filled : PmState Ω =>
    let linked := linkRecord P filled pri pm.handleCounter
    { filled with snode := linked.1, pmNodeSlist := linked.2 }) hfill

/-- **A call** does the same. -/
theorem apiCall_refilter (pm : PmState Ω) (c : ApiCall Ω) :
    apiCall P (pm.refilter g) (c.refilter g) = (apiCall P pm c).refilter g := by
  have hset : ∀ on handle, stepPmSetEnabled P (pm.refilter g) on handle =
      (stepPmSetEnabled P pm on handle).refilter g := by
    intro on handle
    simp only [stepPmSetEnabled, apply_ite (Outcome.refilter g)]
    refine ite_congr rfl (fun _ => rfl) fun _ => ite_congr rfl (fun _ => rfl) fun _ => ?_
    exact congrArg (fun nodes => Outcome.ret { pm with nodes := nodes } 0)
      (refilter_update pm.nodes handle { pm.nodes handle with enabled := on })
  cases c with
  | register node pri world =>
      simp only [apiCall, ApiCall.refilter, stepPmRegister, apply_ite (Outcome.refilter g)]
      refine ite_congr rfl (fun _ => rfl) fun _ => ite_congr rfl (fun _ => rfl) fun _ => ?_
      have hinit := initLoop_refilter (g := g) pm.handleCounter world 0
        (node.head :: node.rest) 0 []
      rw [addRecord_refilter]
      exact congrArg (fun init : InitOutcome => (⟨(pm.addRecord P node pri).refilter g, init.rc,
        some pm.handleCounter, init.events, init.fault⟩ : Outcome Ω)) hinit
  | clear =>
      have hwiped : (fun i => if i < P.nodeLimit then StepPmNodeRecord.zero
          else (pm.nodes i).refilter g) =
          fun i => (if i < P.nodeLimit then StepPmNodeRecord.zero else pm.nodes i).refilter g := by
        funext i
        split <;> rfl
      exact congrArg (fun nodes => Outcome.ret { (stepPmClear P pm).pm with nodes := nodes } 0)
        hwiped
  | enable handle => exact hset true handle
  | disable handle => exact hset false handle
  | subscribe handle cb userData block =>
      simp only [apiCall, ApiCall.refilter, stepPmSubscribeToNode, apply_ite (Outcome.refilter g)]
      refine ite_congr rfl (fun _ => rfl) fun _ => ?_
      cases block with
      | none => rfl
      | some nc =>
          simp only [apply_ite (Outcome.refilter g)]
          refine ite_congr rfl (fun _ => rfl) fun _ => ?_
          let appended := P.slist.append pm.subSnode (pm.nodes handle).subCallbacks nc
          exact congrArg (fun nodes => Outcome.ret
            { pm with
              subs := Function.update pm.subs nc ⟨cb, userData, pm.registrationAt handle⟩
              subSnode := appended.1
              subAllocated := nc :: pm.subAllocated
              nodes := nodes } 0)
            (refilter_update pm.nodes handle
              { pm.nodes handle with subCallbacks := appended.2 })

theorem Proc.goOn_refilter (p : Proc Ω) (snode : Links ℕ) (next : Option ℕ) :
    (p.refilter g).goOn snode next = (p.goOn snode next).refilter g := by
  cases next <;> rfl

theorem Proc.goOnSubs_refilter (p : Proc Ω) (subSnode : Links ℕ) (next : Option ℕ) :
    (p.refilter g).goOnSubs subSnode next = (p.goOnSubs subSnode next).refilter g := by
  cases next <;> rfl

theorem afterPhase_refilter (phase : Phase) (inst : ℕ) (n : StepNode Ω)
    (next : List (StepNode Ω)) :
    afterPhase phase inst (n.refilter g) (next.map (StepNode.refilter g)) =
      (afterPhase phase inst n next).refilter g := by
  cases phase with
  | start | exec => rfl
  | stop => cases next <;> rfl

theorem account_refilter (pm : PmState Ω) (slot : ℕ) (t stop : BitVec 32) :
    (pm.refilter g).account P slot t stop = (pm.account P slot t stop).refilter g := by
  simp only [PmState.account, apply_ite (PmState.refilter g)]
  refine ite_congr rfl (fun _ => ?_) fun _ => rfl
  exact congrArg (fun nodes => ({ pm with nodes := nodes } : PmState Ω))
    (refilter_update pm.nodes slot
      { pm.nodes slot with
        runtimeNs := (pm.nodes slot).runtimeNs + stepInstrStop P t stop
        runs := (pm.nodes slot).runs + 1 })

/-- **The loop body** does the same. -/
theorem visitStep_refilter (hg : ∀ fc, SameVerdicts fc (g fc)) :
    visitStep P (s.refilter g) (p.refilter g) inp = (visitStep P s p inp).refilter g := by
  have hrecord : (s.refilter g).pm.nodes (p.refilter g).pnode =
      (s.pm.nodes p.pnode).refilter g := rfl
  have hlookup : lookupVerdict P (s.refilter g).pm.cache ((s.pm.nodes p.pnode).refilter g)
      (p.refilter g).mes (p.refilter g).mesAddr (p.refilter g).rc inp =
      lookupVerdict P s.pm.cache (s.pm.nodes p.pnode) p.mes p.mesAddr p.rc inp :=
    lookupVerdict_refilter hg _ _ _ _ _
  simp only [visitStep, hrecord, hlookup, apply_ite (Sys.refilter g)]
  refine ite_congr rfl (fun _ => ?_) fun _ => ?_
  · cases lookupVerdict P s.pm.cache (s.pm.nodes p.pnode) p.mes p.mesAddr p.rc inp with
    | error u => rfl
    | ok x =>
        simp only [apply_ite (Sys.refilter g)]
        refine ite_congr rfl (fun _ => rfl) fun _ => ?_
        rw [StepPmNodeRecord.refilter]
        cases (s.pm.nodes p.pnode).node with
        | none => rfl
        | some chain => rfl
  · exact congrArg (fun q => ({ s.refilter g with
      log := s.log ++ [.visit p.pnode false], proc := some q } : Sys Ω))
      (Proc.goOn_refilter p s.pm.snode p.tmp)

/-- **The work-queue thread** does the same. -/
theorem procStep_refilter (hg : ∀ fc, SameVerdicts fc (g fc)) :
    procStep P (s.refilter g) (p.refilter g) inp = (procStep P s p inp).map (Sys.refilter g) := by
  have hpc : (p.refilter g).pc = p.pc.refilter g := rfl
  unfold procStep
  rw [hpc]
  cases p.pc with
  | visit => exact congrArg some (visitStep_refilter hg)
  | lock =>
      rw [Option.map_map]
      rfl
  | head =>
      exact congrArg (fun q => some { s.refilter g with proc := some q })
        (Proc.goOn_refilter p s.pm.snode s.pm.pmNodeSlist.head)
  | call phase inst n next =>
      have hcallbacks : (n.refilter g).callbacks = n.callbacks := rfl
      simp only [Pc.refilter, hcallbacks, afterPhase_refilter]
      cases n.callbacks.handler phase with
      | none => rfl
      | some f =>
          -- behind the handler, or at the error handler
          have hnext : ∀ code, (if code = 0 then (afterPhase phase inst n next).refilter g
              else .error phase inst (n.refilter g) (next.map (StepNode.refilter g)) code) =
              (if code = 0 then afterPhase phase inst n next
                else .error phase inst n next code).refilter g := by
            intro code
            rw [apply_ite (Pc.refilter g)]
            rfl
          let r := f.code inp.world p.mes (s.pm.nodes p.pnode).handle inst
          exact congrArg (fun pc => some ({ s.refilter g with
            log := s.log ++ [.handler phase f.addr p.mesAddr (s.pm.nodes p.pnode).handle inst
              r.1 p.under]
            proc := some { p with mes := r.2, pc := pc } } : Sys Ω)) (hnext r.1)
  | error phase inst n next code =>
      have hcallbacks : (n.refilter g).callbacks = n.callbacks := rfl
      simp only [Pc.refilter, hcallbacks, afterPhase_refilter]
      cases n.callbacks.errorHandler with
      | none => rfl
      | some e => rfl
  | subsHead =>
      exact congrArg (fun q => some { s.refilter g with
        log := s.log ++ doneEvents p.pnode (s.pm.nodes p.pnode).subCallbacks.head
        proc := some q })
        (Proc.goOnSubs_refilter { p with fetched := s.pm.epoch } s.pm.subSnode
          (s.pm.nodes p.pnode).subCallbacks.head)
  | subs entry subsTmp =>
      have hsubs : (s.refilter g).pm.subs = s.pm.subs := rfl
      simp only [Pc.refilter, hsubs]
      cases (s.pm.subs entry).cb with
      | none => rfl
      | some f => rfl
  | subsNext subsTmp =>
      exact congrArg (fun q => some { s.refilter g with
        log := s.log ++ doneEvents p.pnode subsTmp, proc := some q })
        (Proc.goOnSubs_refilter p s.pm.subSnode subsTmp)
  | relock =>
      dsimp only [Pc.refilter]
      rw [Option.map_map]
      refine congrFun (congrArg _ (funext fun m => ?_)) _
      exact congrArg₂ (fun pm q => ({ s with regAccess := m, pm := pm, proc := some q } : Sys Ω))
        (account_refilter s.pm p.pnode p.instr inp.cycles) (Proc.goOn_refilter p s.pm.snode p.tmp)
  | tail => rfl

/-- **With the same verdicts the system takes the same steps.** Filters are read in one place, the
evaluation of a record, so this is a matter of pushing the replacement through everything else. -/
theorem sysStep_refilter (hg : ∀ fc, SameVerdicts fc (g fc)) (s : Sys Ω) (l : Label Ω) :
    sysStep P (s.refilter g) (l.refilter g) = (sysStep P s l).map (Sys.refilter g) := by
  have hfault : (s.refilter g).fault = s.fault := rfl
  unfold sysStep
  rw [hfault, apply_ite (Option.map (Sys.refilter g))]
  refine ite_congr rfl (fun _ => rfl) fun _ => ?_
  cases l with
  | process mesAddr mes free =>
      simp only [Label.refilter, Sys.refilter]
      cases s.proc <;> rfl
  | proc inp =>
      cases hproc : s.proc with
      | none =>
          have hnone : (s.refilter g).proc = none := by simp [Sys.refilter, hproc]
          simp only [Label.refilter, hnone]
          rfl
      | some p =>
          have hsome : (s.refilter g).proc = some (p.refilter g) := by simp [Sys.refilter, hproc]
          simp only [Label.refilter, hsome]
          exact procStep_refilter hg
  | other t c =>
      have hlocks : (c.refilter g).locks = c.locks := by cases c <;> rfl
      have hheap : (c.refilter g).heapOk (s.refilter g).pm = c.heapOk s.pm := by cases c <;> rfl
      have hmutex : (s.refilter g).regAccess = s.regAccess := rfl
      simp only [Label.refilter, hlocks, hheap, hmutex, apply_ite (Option.map (Sys.refilter g))]
      refine ite_congr rfl (fun _ => rfl) fun _ => ?_
      exact congrArg (fun o => some ((s.refilter g).afterCall o)) (apiCall_refilter s.pm c)

/-- …and has the same runs. -/
theorem run_refilter (hg : ∀ fc, SameVerdicts fc (g fc)) (s : Sys Ω) (ls : List (Label Ω)) :
    run (sysStep P) (s.refilter g) (ls.map (Label.refilter g)) =
      (run (sysStep P) s ls).map (Sys.refilter g) :=
  run_map (sysStep_refilter hg) s ls

end Steps

/-! ### Programs that tell filters apart -/

/-- An accumulator is a truth value. -/
theorem stepFiltEvaluate_bool {fc : StepFilterChain} {mes : StepMeasurement} {rc v : ℤ}
    (h : stepFiltEvaluate (some fc) (some mes) = .ok (rc, v)) : v = 0 ∨ v = 1 := by
  have hentry : ∀ f prev,
      stepFiltEvaluateFilter f mes prev = 0 ∨ stepFiltEvaluateFilter f mes prev = 1 := by
    intro f prev
    unfold stepFiltEvaluateFilter
    cases f.op with
    | is | and | andNot | or | orNot | xor => exact (ite_eq_or_eq _ _ _).symm
    | not => exact ite_eq_or_eq _ _ _
    | undefined value => exact Or.inl rfl
  have hloop : ∀ count fs prev, (prev = 0 ∨ prev = 1) →
      stepFiltEvaluateLoop mes count fs prev = .ok v → v = 0 ∨ v = 1 := by
    intro count
    induction count with
    | zero => exact fun _ _ hprev hv => Except.ok.inj hv ▸ hprev
    | succ count ih =>
        intro fs prev _ hv
        cases fs with
        | nil => cases hv
        | cons f fs => exact ih fs _ (hentry f prev) hv
  simp only [stepFiltEvaluate] at h
  split at h
  · exact Or.inr (Prod.ext_iff.mp (Except.ok.inj h)).2.symm
  · split at h
    · cases h
    · cases h
    · split at h
      · exact Or.inl (Prod.ext_iff.mp (Except.ok.inj h)).2.symm
      · obtain ⟨w, hw, heq⟩ := exists_of_map_eq_ok h
        cases heq
        exact hloop _ _ _ (Or.inl rfl) hw

section Probe

variable [Inhabited Ω]

/-- A node with an exec handler, behind the filters. -/
def probeNode (fc : StepFilterChain) : StepNodeChain Ω :=
  let exec : FnPtr (StepNodeCallback Ω) := ⟨0, fun _ mes _ _ => (0, mes)⟩
  ⟨⟨fc, { StepNodeCallbacks.none with execHandler := some exec }, 0⟩, []⟩

/-- What its steps read. -/
def probeInputs : Inputs Ω := ⟨default, default, 0, 0#32⟩

/-- It is registered, a measurement is dispatched, and the dispatch takes `n` steps.  A probe is a
program that shows the verdict of a filter chain by whether its exec handler is called. -/
def probe (fc : StepFilterChain) (mes : StepMeasurement) (n : ℕ) : List (Label Ω) :=
  .other 1 (.register (probeNode fc) 0 fun _ => default) :: .process 0 mes false ::
    List.replicate n (.proc probeInputs)

/-- What the application sees of a program, and whether it is one. -/
def seen (P : Platform) (ls : List (Label Ω)) :
    Option (List Call × Option UndefinedBehaviour) :=
  (run (sysStep P) (Sys.init P) ls).map fun s => (calls s.log, s.fault)

/-- The dispatch at the loop body. -/
def probeProc (mes : StepMeasurement) : Proc Ω :=
  { (Proc.start 0 mes false : Proc Ω) with pc := .visit }

def probed (fc : StepFilterChain) (mes : StepMeasurement) : Sys Ω where
  pm := (apiCall Platform.tests (PmState.init Platform.tests)
    (.register (probeNode fc) 0 fun _ => default)).pm
  regAccess := .held workQueueTid 0
  proc := some (probeProc mes)
  log := []
  fault := none

variable {fc fc' : StepFilterChain} {mes : StepMeasurement} {u : UndefinedBehaviour} {rc v : ℤ}

theorem seen_probe (n : ℕ) :
    seen Platform.tests (probe fc mes (n + 3) : List (Label Ω)) =
      (run (sysStep Platform.tests)
        (visitStep Platform.tests (probed fc mes) (probeProc mes) probeInputs : Sys Ω)
        (List.replicate n (.proc probeInputs))).map fun s : Sys Ω => (calls s.log, s.fault) :=
  rfl

/-- The verdict on the probe is that on its filters. -/
theorem lookup_probed {r : Except UndefinedBehaviour (ℤ × ℤ)}
    (he : stepFiltEvaluate (some fc) (some mes) = r) :
    lookupVerdict Platform.tests (probed fc mes : Sys Ω).pm.cache
        ((probed fc mes : Sys Ω).pm.nodes (probeProc mes : Proc Ω).pnode)
        (probeProc mes : Proc Ω).mes (probeProc mes : Proc Ω).mesAddr
        (probeProc mes : Proc Ω).rc probeInputs =
      r.map fun r => (⟨r.2, r.1, mes, []⟩, (probed fc mes : Sys Ω).pm.cache) := by
  have hrecord : evaluateRecord ((probed fc mes : Sys Ω).pm.nodes 0) mes 0 0 probeInputs =
      r.map fun r => ⟨r.2, r.1, mes, []⟩ := by
    subst he
    change ((stepFiltEvaluate (some fc) (some mes)).map _).map _ = _
    cases stepFiltEvaluate (some fc) (some mes) <;> rfl
  refine (lookupVerdict_off rfl).trans ?_
  change (evaluateRecord ((probed fc mes : Sys Ω).pm.nodes 0) mes 0 0 probeInputs).map _ = _
  rw [hrecord]
  cases r <;> rfl

/-- What is seen of a chain that has a verdict depends on nothing else. -/
theorem seen_probe_verdict (he : stepFiltEvaluate (some fc) (some mes) = .ok (rc, v)) (n : ℕ) :
    seen Platform.tests (probe fc mes (n + 3) : List (Label Ω)) =
      (run (sysStep Platform.tests)
        { (probed fc mes : Sys Ω) with
          regAccess := .free
          log := .visit 0 true :: .verdict 0 v :: if v = 0 then [] else [.execute 0]
          proc := some
            { (probeProc mes : Proc Ω) with
              rc := rc
              pc := if v = 0 then .relock else .call .start 0 (probeNode fc).head [] } }
        (List.replicate n (.proc probeInputs))).map fun s : Sys Ω => (calls s.log, s.fault) := by
  rw [seen_probe]
  refine congrArg (fun s : Sys Ω => (run (sysStep Platform.tests) s _).map _) ?_
  simp only [visitStep, lookup_probed he, Except.map]
  by_cases hv : v = 0
  · simp only [if_pos hv]
    rfl
  · simp only [if_neg hv]
    rfl

theorem seen_probe_error (he : stepFiltEvaluate (some fc) (some mes) = .error u) :
    seen Platform.tests (probe fc mes 3 : List (Label Ω)) = some ([], some u) := by
  rw [seen_probe]
  simp only [visitStep, lookup_probed he, Except.map]
  rfl

theorem seen_probe_ok (he : stepFiltEvaluate (some fc) (some mes) = .ok (rc, v)) :
    seen Platform.tests (probe fc mes 3 : List (Label Ω)) = some ([], none) := by
  rw [seen_probe_verdict he]
  by_cases hv : v = 0
  · subst hv
    rfl
  · simp only [if_neg hv]
    rfl

theorem seen_probe_rejected (he : stepFiltEvaluate (some fc) (some mes) = .ok (rc, 0)) :
    seen Platform.tests (probe fc mes 5 : List (Label Ω)) = some ([.returned rc], none) := by
  rw [seen_probe_verdict he]
  rfl

theorem seen_probe_accepted (he : stepFiltEvaluate (some fc) (some mes) = .ok (rc, 1)) :
    seen Platform.tests (probe fc mes 5 : List (Label Ω)) =
        some ([.handler .exec 0 0 0 0 0], none) ∧
      seen Platform.tests (probe fc mes 9 : List (Label Ω)) =
        some ([.handler .exec 0 0 0 0 0, .returned rc], none) := by
  rw [seen_probe_verdict he, seen_probe_verdict he]
  exact ⟨rfl, rfl⟩

/-- The verdict is read off what is seen. -/
theorem verdict_of_seen (hseen : ∀ n, seen Platform.tests (probe fc' mes n : List (Label Ω)) =
    seen Platform.tests (probe fc mes n : List (Label Ω))) :
    stepFiltEvaluate (some fc') (some mes) = stepFiltEvaluate (some fc) (some mes) := by
  have h3 := hseen 3
  have h5 := hseen 5
  have h9 := hseen 9
  cases he : stepFiltEvaluate (some fc) (some mes) with
  | error u =>
      rw [seen_probe_error he] at h3
      cases he' : stepFiltEvaluate (some fc') (some mes) with
      | error u' =>
          rw [seen_probe_error he'] at h3
          cases h3
          rfl
      | ok x =>
          rw [seen_probe_ok he'] at h3
          cases h3
  | ok x =>
      rw [seen_probe_ok he] at h3
      cases he' : stepFiltEvaluate (some fc') (some mes) with
      | error u' =>
          rw [seen_probe_error he'] at h3
          cases h3
      | ok x' =>
          obtain ⟨rc, v⟩ := x
          obtain ⟨rc', v'⟩ := x'
          -- the handler is called, or the return code is seen at once
          rcases stepFiltEvaluate_bool he with rfl | rfl <;>
            rcases stepFiltEvaluate_bool he' with rfl | rfl
          · rw [seen_probe_rejected he, seen_probe_rejected he'] at h5
            cases h5
            rfl
          · rw [seen_probe_rejected he, (seen_probe_accepted he').1] at h5
            cases h5
          · rw [(seen_probe_accepted he).1, seen_probe_rejected he'] at h5
            cases h5
          · rw [(seen_probe_accepted he).2, (seen_probe_accepted he').2] at h9
            cases h9
            rfl

end Probe

/-! ### Full abstraction -/

/-- `fc'` in place of `fc`. -/
def replaceFilters (fc fc' : StepFilterChain) (x : StepFilterChain) : StepFilterChain :=
  if x = fc then fc' else x

/-- **Filter chains are what they accept.**  `step_filt_evaluate` gives the same verdicts and
return codes for `fc'` as for `fc` if and only if in no program whose callbacks do not look at
filters, whatever the configuration, the callbacks and the interleaving, `fc'` in place of `fc`
changes what the application sees. -/
theorem sameVerdicts_iff [Inhabited Ω] (fc fc' : StepFilterChain) :
    SameVerdicts fc fc' ↔ ∀ (P : Platform) (ls : List (Label Ω)),
      seen P (ls.map (Label.refilter (replaceFilters fc fc'))) = seen P ls := by
  constructor
  · intro hsame P ls
    have hg : ∀ x, SameVerdicts x (replaceFilters fc fc' x) := by
      intro x mes
      unfold replaceFilters
      by_cases hx : x = fc
      · rw [if_pos hx, hx]
        exact hsame mes
      · rw [if_neg hx]
    have hinit : (Sys.init P : Sys Ω).refilter (replaceFilters fc fc') = Sys.init P := rfl
    have hrun := run_refilter (P := P) hg (Sys.init P) ls
    rw [hinit] at hrun
    rw [seen, hrun, Option.map_map]
    rfl
  · intro hseen mes
    refine verdict_of_seen (Ω := Ω) fun n => ?_
    have hprobe := hseen Platform.tests (probe fc mes n)
    have hmap : (probe fc mes n : List (Label Ω)).map
        (Label.refilter (replaceFilters fc fc')) = probe fc' mes n := by
      have hnode : (probeNode fc : StepNodeChain Ω).refilter (replaceFilters fc fc') =
          probeNode fc' := by
        simp only [StepNodeChain.refilter, StepNode.refilter, probeNode, replaceFilters, if_true]
        rfl
      simp only [probe, List.map_cons, List.map_replicate, Label.refilter, ApiCall.refilter, hnode]
    rw [← hmap]
    exact hprobe

end StepPipeline
