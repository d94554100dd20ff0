import StepPipeline.DispatchOrder

/-!
# What a dispatch reports of its evaluations

`step_filt_evaluate` refuses a chain that starts with neither IS nor NOT.
`step_pm_process` keeps its code in the one variable `rc`, which it returns in the end and
`step_pm_poll_handler` tests.

* `StepPmNodeRecord.Malformed` — a record whose filter chain is refused;
* `recordsMet` — the records the loop comes upon, as they are then;
* `filterEvaluations` — **those whose filter chain is evaluated then**: enabled, without
  an `evaluate_handler`, and not answered by the cache;
* `lookupVerdict_rc` — one record leaves `rc` alone, or overwrites it;
* `Reporting` — the invariant: `rc` is the code of the last evaluation;
* `evaluation_errors_reported_iff` — a dispatch reports the malformed records it comes
  upon exactly when there are none, or one of them is evaluated last.

## Which records count

An evaluation error is a property of a registered chain: it starts with an operand that cannot
come first.  Whether a dispatch meets it depends on what other threads have enabled and registered
by the time the loop gets there, so the records are collected as they are met.  Those with an
`evaluate_handler` have no filter chain that is looked at, and those the cache answers for are not
evaluated again.

The report is one code for a whole dispatch.  It can say that something was wrong, not what; the
property asks no more of it than that it is non-zero exactly when a malformed record has been met.
-/

namespace StepPipeline

open IntrusiveList LabelledRun

variable {Ω : Type}

/-! ### Malformed records -/

/-- A chain that has entries, the first one with an operand other than IS and NOT. -/
def StepFilterChain.Malformed (fc : StepFilterChain) : Prop :=
  fc.count ≠ 0 ∧ ∃ f fs, fc.chain = some (f :: fs) ∧ ¬f.op.Initial

/-- **A record that is refused**: its first node has no `evaluate_handler` and a malformed
filter chain. -/
def StepPmNodeRecord.Malformed (r : StepPmNodeRecord Ω) : Prop :=
  ∃ chain, r.node = some chain ∧ chain.head.callbacks.evaluateHandler = none ∧
    chain.head.filters.Malformed

/-- Whether the match verdict of the record is found by its filter chain: there is no
`evaluate_handler`, and the cache has no verdict for the filter word.  These are the visits that
assign to `rc`. -/
def StepPmNodeRecord.filtersAfresh (P : Platform) (cache : StepCache) (word : BitVec 32)
    (r : StepPmNodeRecord Ω) : Bool :=
  (r.node.any fun chain => chain.head.callbacks.evaluateHandler.isNone) &&
    (!P.filterCache || (cache.lookup word r.handle).isNone)

section Lookup

variable {P : Platform} {r : StepPmNodeRecord Ω} {mes : StepMeasurement} {mesAddr : ℕ}
  {rc : ℤ} {inp : Inputs Ω} {v : Verdict} {cache cache' : StepCache}

/-- The code of an evaluation tells the malformed chains from the others. -/
theorem stepFiltEvaluate_rc {fc : StepFilterChain} {result : ℤ × ℤ}
    (h : stepFiltEvaluate (some fc) (some mes) = .ok result) :
    result.1 ≠ 0 ↔ fc.Malformed := by
  simp only [stepFiltEvaluate] at h
  by_cases hcount : fc.count = 0
  · rw [if_pos hcount] at h
    obtain rfl := Except.ok.inj h
    exact iff_of_false (by simp) fun hbad => hbad.1 hcount
  · rw [if_neg hcount] at h
    cases hchain : fc.chain with
    | none => simp [hchain] at h
    | some entries =>
        cases entries with
        | nil => simp [hchain] at h
        | cons f fs =>
            have hbad : fc.Malformed ↔ ¬f.op.Initial := by
              simp [StepFilterChain.Malformed, hcount, hchain]
            have hop : (f.op ≠ .is ∧ f.op ≠ .not) ↔ ¬f.op.Initial := not_or.symm
            simp only [hchain] at h
            rw [hbad, ← hop]
            by_cases hinit : f.op ≠ .is ∧ f.op ≠ .not
            · rw [if_pos hinit] at h
              obtain rfl := Except.ok.inj h
              exact iff_of_true (by decide) hinit
            · rw [if_neg hinit] at h
              obtain ⟨m, -, rfl⟩ := exists_of_map_eq_ok h
              exact iff_of_false (by simp) hinit

/-- A fresh evaluation leaves `rc` to the filter chain, if it gets that far. -/
theorem evaluateRecord_rc (h : evaluateRecord r mes mesAddr rc inp = .ok v) :
    ∃ chain, r.node = some chain ∧
      if chain.head.callbacks.evaluateHandler = none
      then (v.rc ≠ 0 ↔ r.Malformed) else v.rc = rc := by
  obtain ⟨chain, hnode, hv⟩ := evaluateRecord_eq_ok h
  obtain ⟨u, hu, rfl⟩ := exists_of_map_eq_ok hv
  have hmatched : (applyMatched chain.head mesAddr r.handle inp.world' u).rc = u.rc := by
    unfold applyMatched
    split
    · rfl
    · split <;> rfl
  refine ⟨chain, hnode, ?_⟩
  rw [hmatched]
  unfold evaluateFilter at hu
  cases hhandler : chain.head.callbacks.evaluateHandler with
  | some f =>
      simp only [hhandler] at hu
      obtain rfl := Except.ok.inj hu
      simp
  | none =>
      simp only [hhandler] at hu
      obtain ⟨result, hresult, rfl⟩ := exists_of_map_eq_ok hu
      have hbad : r.Malformed ↔ chain.head.filters.Malformed := by
        simp [StepPmNodeRecord.Malformed, hnode, hhandler]
      rw [if_pos rfl, hbad]
      exact stepFiltEvaluate_rc hresult

/-- **A record overwrites `rc` or leaves it alone**, with and without a cache. -/
theorem lookupVerdict_rc
    (h : lookupVerdict P cache r mes mesAddr rc inp = .ok (v, cache')) :
    if r.filtersAfresh P cache mes.header.filterBits
    then (v.rc ≠ 0 ↔ r.Malformed) else v.rc = rc := by
  -- an evaluation that the cache does not spare
  have hfresh : evaluateRecord r mes mesAddr rc inp = .ok v →
      (!P.filterCache || (cache.lookup mes.header.filterBits r.handle).isNone) = true →
      if r.filtersAfresh P cache mes.header.filterBits
      then (v.rc ≠ 0 ↔ r.Malformed) else v.rc = rc := by
    intro hv hmiss
    obtain ⟨chain, hnode, hrc⟩ := evaluateRecord_rc hv
    simp only [StepPmNodeRecord.filtersAfresh, hmiss, hnode, Option.any_some, Bool.and_true,
      Option.isNone_iff_eq_none]
    exact hrc
  cases lookupVerdict_move h with
  | hit hon found hfound => simp [StepPmNodeRecord.filtersAfresh, hon, hfound]
  | miss _ hmiss _ hv _ _ => exact hfresh hv (by simp [hmiss])
  | fresh hoff _ hv => exact hfresh hv (by simp [hoff])

end Lookup

/-! ### What a dispatch comes upon -/

/-- A record the loop comes upon: its slot, the record as it is then, and whether its
filter chain is evaluated then. -/
structure Met (Ω : Type) where
  slot : ℕ
  record : StepPmNodeRecord Ω
  afresh : Bool

/-- The loop comes upon a malformed record that is enabled. -/
def Met.Malformed (m : Met Ω) : Prop :=
  m.record.enabled = true ∧ m.record.Malformed

/-- **The records a dispatch comes upon**, read off the states its steps are taken from. -/
def recordsMet (P : Platform) (s : Sys Ω) : Label Ω → List (Met Ω)
  | .proc _ =>
      match s.proc with
      | none => []
      | some p =>
          match p.pc with
          | .visit =>
              let r := s.pm.nodes p.pnode
              [⟨p.pnode, r,
                r.enabled && r.filtersAfresh P s.pm.cache p.mes.header.filterBits⟩]
          | _ => []
  | _ => []

/-- **The last evaluation by a filter chain** is that of a malformed record.  Visits that do not
assign to `rc` are filtered out first. -/
def LastMalformed (met : List (Met Ω)) : Prop :=
  ∃ m, (met.filter Met.afresh).getLast? = some m ∧ m.Malformed

section Met

variable {P : Platform} {s : Sys Ω} {p : Proc Ω} {inp : Inputs Ω} {met : List (Met Ω)}
  {m : Met Ω}

theorem recordsMet_of_ne (hproc : s.proc = some p) (hpc : p.pc ≠ .visit) :
    recordsMet P s (.proc inp) = [] := by
  rw [recordsMet, hproc]
  dsimp only
  split
  · contradiction
  · rfl

theorem LastMalformed.exists_met (h : LastMalformed met) : ∃ m ∈ met, m.Malformed := by
  obtain ⟨m, hlast, hbad⟩ := h
  exact ⟨m, List.mem_of_mem_filter (List.mem_of_getLast? hlast), hbad⟩

/-- The last evaluation tells whether a malformed record was met, if none was or it is one. -/
theorem lastMalformed_iff_exists :
    (LastMalformed met ↔ ∃ m ∈ met, m.Malformed) ↔
      (∀ m ∈ met, ¬m.Malformed) ∨ LastMalformed met := by
  constructor
  · intro hiff
    by_cases hlast : LastMalformed met
    · exact Or.inr hlast
    · exact Or.inl fun m hm hbad => hlast (hiff.mpr ⟨m, hm, hbad⟩)
  · rintro (hnone | hlast)
    · refine ⟨LastMalformed.exists_met, ?_⟩
      rintro ⟨m, hm, hbad⟩
      exact absurd hbad (hnone m hm)
    · exact ⟨LastMalformed.exists_met, fun _ => hlast⟩

theorem lastMalformed_concat :
    LastMalformed (met ++ [m]) ↔ if m.afresh then m.Malformed else LastMalformed met := by
  unfold LastMalformed
  cases hafresh : m.afresh with
  | true => simp [List.filter_append, hafresh]
  | false => simp [List.filter_append, hafresh]

/-- The slots a dispatch comes upon are those it visits. -/
theorem slots_visitOf (l : Label Ω) :
    slots (visitOf P s l) = (recordsMet P s l).map Met.slot := by
  cases l with
  | proc inp =>
      cases hproc : s.proc with
      | none => simp [visitOf, recordsMet, hproc, slots]
      | some p => cases hpc : p.pc <;> simp [visitOf, recordsMet, hproc, hpc, slots]
  | _ => rfl

end Met

/-! ### The code of the last evaluation -/

/-- **The invariant of `rc`**: as long as defined behaviour was not left, it is not 0 exactly when
the last filter chain evaluated is malformed.  It starts out true, as nothing has been evaluated
and `rc` is 0. -/
def Reporting (s : Sys Ω) (met : List (Met Ω)) : Prop :=
  s.fault = none → ∀ p, s.proc = some p → (p.rc ≠ 0 ↔ LastMalformed met)

section Reporting

variable {P : Platform} {s s' : Sys Ω} {p p' : Proc Ω} {inp : Inputs Ω} {l : Label Ω}
  {met : List (Met Ω)}

@[simp] theorem Proc.goOn_rc (p : Proc Ω) (snode : Links ℕ) (next : Option ℕ) :
    (p.goOn snode next).rc = p.rc := by
  cases next <;> rfl

/-- The loop body on a disabled record leaves `rc` alone. -/
theorem lastMalformed_skip (hproc : s.proc = some p) (hpc : p.pc = .visit)
    (hoff : (s.pm.nodes p.pnode).enabled = false) :
    LastMalformed (met ++ recordsMet P s (.proc inp)) ↔ LastMalformed met := by
  simp only [recordsMet, hproc, hpc, lastMalformed_concat, hoff, Bool.false_and,
    Bool.false_eq_true, if_false]

/-- The loop body on an enabled record does to `rc` what the lookup does. -/
theorem lastMalformed_lookup (hproc : s.proc = some p) (hpc : p.pc = .visit)
    (hon : (s.pm.nodes p.pnode).enabled = true) {v : Verdict} {cache : StepCache}
    (hv : lookupVerdict P s.pm.cache (s.pm.nodes p.pnode) p.mes p.mesAddr p.rc inp =
      .ok (v, cache)) (hp : p.rc ≠ 0 ↔ LastMalformed met) :
    v.rc ≠ 0 ↔ LastMalformed (met ++ recordsMet P s (.proc inp)) := by
  have hrc := lookupVerdict_rc hv
  simp only [recordsMet, hproc, hpc, lastMalformed_concat, hon, Bool.true_and, Met.Malformed,
    true_and]
  split at hrc
  · rename_i hafresh
    rw [if_pos hafresh, hrc]
  · rename_i hafresh
    rw [if_neg hafresh, hrc, hp]

/-- **The step lemma of `rc`.** -/
theorem sysStep_reporting (h : Reporting s met) (hlabel : l.InFlight)
    (hstep : sysStep P s l = some s') : Reporting s' (met ++ recordsMet P s l) := by
  obtain ⟨hfault, hmove⟩ := sysStep_move hstep
  cases hmove with
  | process _ _ _ _ => exact absurd hlabel id
  | other _ _ _ _ _ =>
      intro _ p hproc
      simp only [recordsMet, List.append_nil]
      exact h hfault p hproc
  | @proc inp p _ hproc hmove =>
      intro hfault' q hq
      have hp := h hfault p hproc
      -- away from the loop body `rc` is not written
      have hkept : p.pc ≠ .visit → q.rc = p.rc →
          (q.rc ≠ 0 ↔ LastMalformed (met ++ recordsMet P s (.proc inp))) := by
        intro hpc hrc
        rw [recordsMet_of_ne hproc hpc, List.append_nil, hrc]
        exact hp
      cases hmove with
      | crash u => cases hfault'
      | lock hpc _ _ | head hpc | relock hpc _ _ =>
          obtain rfl := Option.some.inj hq
          exact hkept (by simp [hpc]) (by simp)
      | chain hpc _ hsame _ _ _ | chainDone hpc _ hsame _ =>
          obtain rfl := Option.some.inj hq
          exact hkept hpc.ne_visit hsame.rc
      | tail _ => cases hq
      | skip hpc hoff =>
          obtain rfl := Option.some.inj hq
          rw [lastMalformed_skip hproc hpc hoff, Proc.goOn_rc]
          exact hp
      | noMatch hpc hon v cache hv _ | enter hpc hon v cache _ hv _ _ =>
          obtain rfl := Option.some.inj hq
          exact lastMalformed_lookup hproc hpc hon hv hp

end Reporting

/-! ### Undisturbed dispatches -/

/-- A step of the work-queue thread. -/
def Label.IsProc : Label Ω → Prop
  | .proc _ => True
  | _ => False

/-- **What holds while the other threads keep away**: the registry is the one the dispatch
started with, and the records are met as they are there. -/
structure Undisturbed (pm : PmState Ω) (s : Sys Ω) (met : List (Met Ω)) : Prop where
  registry : pm.SameRegistry s.pm
  met : ∀ m ∈ met, m.record.node = (pm.nodes m.slot).node ∧
    m.record.enabled = (pm.nodes m.slot).enabled

section Undisturbed

variable {P : Platform} {s s' u : Sys Ω} {p : Proc Ω} {l : Label Ω} {met : List (Met Ω)}
  {pm : PmState Ω} {ls : List (Label Ω)}

theorem Met.malformed_iff {m : Met Ω} (hnode : m.record.node = (pm.nodes m.slot).node)
    (henabled : m.record.enabled = (pm.nodes m.slot).enabled) :
    m.Malformed ↔ (pm.nodes m.slot).enabled = true ∧ (pm.nodes m.slot).Malformed := by
  rw [Met.Malformed, StepPmNodeRecord.Malformed, StepPmNodeRecord.Malformed, hnode, henabled]

/-- The step lemma of an undisturbed dispatch. -/
theorem sysStep_undisturbed (h : Undisturbed pm s met) (hlabel : l.IsProc)
    (hstep : sysStep P s l = some s') : Undisturbed pm s' (met ++ recordsMet P s l) := by
  obtain ⟨-, hmove⟩ := sysStep_move hstep
  cases hmove with
  | process _ _ _ _ => exact absurd hlabel id
  | other _ _ _ _ _ => exact absurd hlabel id
  | @proc inp p _ hproc hmove =>
      refine ⟨h.registry.trans hmove.sameRegistry, ?_⟩
      intro m hm
      rcases List.mem_append.mp hm with hm | hm
      · exact h.met m hm
      · by_cases hpc : p.pc = .visit
        · simp only [recordsMet, hproc, hpc, List.mem_singleton] at hm
          subst hm
          exact ⟨h.registry.node _, h.registry.enabled _⟩
        · rw [recordsMet_of_ne hproc hpc] at hm
          cases hm

/-- **An undisturbed dispatch comes upon the registry**: once it is behind the loop, it has
met a malformed record exactly if there is one that is enabled. -/
theorem malformed_met_iff (h : SysInvariant P s) (hproc : s.proc = some p)
    (hpc : p.pc = .lock) (hlabels : ∀ l ∈ ls, l.IsProc)
    (hrun : run (sysStep P) s ls = some u) (hfault : u.fault = none) {q : Proc Ω}
    (hproc' : u.proc = some q) (hpc' : q.pc = .tail) :
    (∃ m ∈ trace (sysStep P) (recordsMet P) s ls, m.Malformed) ↔
      ∃ i ∈ s.pm.listed P, (s.pm.nodes i).enabled = true ∧ (s.pm.nodes i).Malformed := by
  have hmeanwhile : Meets (sysStep P) (fun _ l => l.Meanwhile) s ls := by
    refine meets_of_forall_mem fun l hl _ => ?_
    have hl' := hlabels l hl
    cases l with
    | proc _ => trivial
    | _ => exact absurd hl' id
  have hend := run_trace_invariant
    (fun _ _ _ _ hI hlabel hstep => sysStep_dispatching hI hlabel hstep)
    (dispatching_start h hproc (.inl hpc)) hmeanwhile hrun
  have hquiet := run_trace_invariant
    (fun _ _ _ _ hI hlabel hstep => sysStep_undisturbed hI hlabel hstep)
    (⟨.refl _, by simp⟩ : Undisturbed s.pm s []) (meets_of_forall_mem fun l hl _ => hlabels l hl)
    hrun
  set met := trace (sysStep P) (recordsMet P) s ls with hmet
  have hslots : slots (trace (sysStep P) (visitOf P) s ls) = met.map Met.slot := by
    rw [slots, hmet, map_trace, map_trace]
    exact congrArg (trace (sysStep P) · s ls) (funext fun s => funext fun l => slots_visitOf l)
  obtain ⟨regs, l, hrep, -, hsub, hpos⟩ := hend.registry
  have hlisted : s.pm.listed P = l := by
    rw [← hrep.listed_eq, PmState.listed, PmState.listed, hquiet.registry.snode,
      hquiet.registry.pmNodeSlist]
  have hcursor := (position_tail_iff hproc' hpc').mp (hpos hfault)
  rw [hslots] at hsub hcursor
  constructor
  · rintro ⟨m, hm, hbad⟩
    obtain ⟨hnode, henabled⟩ := hquiet.met m hm
    exact ⟨m.slot, hlisted.symm ▸ hsub.subset (List.mem_map_of_mem hm),
      (Met.malformed_iff hnode henabled).mp hbad⟩
  · rintro ⟨i, hi, hbad⟩
    obtain ⟨m, hm, rfl⟩ := List.mem_map.mp (hcursor.2 i hi)
    obtain ⟨hnode, henabled⟩ := hquiet.met m hm
    exact ⟨m, hm, (Met.malformed_iff hnode henabled).mpr hbad⟩

end Undisturbed

/-! ### Every error is reported -/

/-- **The dispatch in flight returns `rc`**, in the next step of its thread. -/
def ReturnsCode (P : Platform) (s : Sys Ω) (rc : ℤ) : Prop :=
  ∃ inp t, sysStep P s (.proc inp) = some t ∧ t.proc = none ∧
    t.log.getLast? = some (.returned rc)

/-- A thread that returns stands behind the loop, and returns its `rc`. -/
theorem ReturnsCode.at_tail {P : Platform} {s : Sys Ω} {rc : ℤ} (h : ReturnsCode P s rc) :
    s.fault = none ∧ ∃ p, s.proc = some p ∧ p.pc = .tail ∧ p.rc = rc := by
  obtain ⟨inp, t, hstep, hdone, hlog⟩ := h
  obtain ⟨hfault, hmove⟩ := sysStep_move hstep
  cases hmove with
  | @proc _ p _ hproc hmove =>
      refine ⟨hfault, p, hproc, ?_⟩
      cases hmove with
      | tail hpc => exact ⟨hpc, by simpa [← List.append_assoc] using hlog⟩
      | crash u => exact absurd (hproc.symm.trans hdone) (by simp)
      | _ => cases hdone

/-- **When a dispatch reports its evaluation errors**, for any calls of other threads
meanwhile: when no record it comes upon enabled is malformed, or the last filter chain it
evaluates is that of a malformed record.  In a dispatch the others keep away from, the
enabled records it comes upon are those of the registry.  And it does return, short of
undefined behaviour, as soon as its thread is left alone. -/
theorem evaluation_errors_reported_iff (P : Platform) {before ls : List (Label Ω)}
    {s u : Sys Ω} {mesAddr : ℕ} {mes : StepMeasurement} {free : Bool}
    (hreach : run (sysStep P) (Sys.init P) before = some s)
    (hlabels : ∀ l ∈ ls, l.InFlight)
    (hrun : run (sysStep P) s (.process mesAddr mes free :: ls) = some u) :
    let met := trace (sysStep P) (recordsMet P) s (.process mesAddr mes free :: ls)
    (∀ rc, ReturnsCode P u rc →
      ((rc ≠ 0 ↔ ∃ m ∈ met, m.Malformed) ↔ (∀ m ∈ met, ¬m.Malformed) ∨ LastMalformed met) ∧
      ((∀ l ∈ ls, l.IsProc) → ((∃ m ∈ met, m.Malformed) ↔
        ∃ i ∈ s.pm.listed P, (s.pm.nodes i).enabled = true ∧ (s.pm.nodes i).Malformed))) ∧
    ∀ inputs : ℕ → Inputs Ω, ∃ n t,
      run (sysStep P) u ((List.range n).map fun i => Label.proc (inputs i)) = some t ∧
        (t.proc = none ∨ t.fault ≠ none) := by
  obtain ⟨s₁, hstart, hrest⟩ := (run_cons_eq_some _).mp hrun
  obtain ⟨p, hproc, hpc, hrc, hpm⟩ : ∃ p, s₁.proc = some p ∧ p.pc = .lock ∧ p.rc = 0 ∧
      s₁.pm = s.pm := by
    obtain ⟨-, hmove⟩ := sysStep_move hstart
    cases hmove with
    | process _ _ _ _ => exact ⟨_, rfl, rfl, rfl, rfl⟩
  have hinv := run_sysInvariant (sysInvariant_init P) hreach
  intro met
  have hmet : met = trace (sysStep P) (recordsMet P) s₁ ls := trace_cons hstart ls
  refine ⟨fun rc hreturn => ⟨?_, fun hquiet => ?_⟩, process_returns ?_⟩
  · have hfirst : Reporting s₁ [] := by
      intro _ q hq
      obtain rfl := Option.some.inj (hproc.symm.trans hq)
      exact iff_of_false (not_not.mpr hrc) fun hlast => by simpa using hlast.exists_met
    have hreporting := run_trace_invariant
      (fun _ _ _ _ hI hlabel hstep => sysStep_reporting hI hlabel hstep) hfirst
      (meets_of_forall_mem fun l hl _ => hlabels l hl) hrest
    rw [← hmet] at hreporting
    obtain ⟨hfault, q, hq, -, rfl⟩ := hreturn.at_tail
    rw [hreporting hfault q hq]
    exact lastMalformed_iff_exists
  · obtain ⟨hfault, q, hq, hqpc, -⟩ := hreturn.at_tail
    rw [hmet, ← hpm]
    exact malformed_met_iff (sysStep_invariant hinv hstart) hproc hpc hquiet hrest hfault hq hqpc
  · exact run_returnInvariant (run_returnInvariant (returnInvariant_init P) hreach) hrun

/-- A chain whose filter chain starts with AND. -/
def malformedChain : StepNodeChain Unit :=
  ⟨⟨⟨1, some [⟨.and, 0#32, 0#32⟩]⟩, .none, 0⟩, []⟩

/-- The malformed chain is registered, and one that accepts everything at the priority
`pri`. -/
def malformedRegistered (pri : ℕ) : List (Label Unit) :=
  [.other 1 (.register malformedChain 4 fun _ => ()),
    .other 1 (.register silentChain pri fun _ => ())]

/-- The steps of a dispatch that enters one of two records. -/
def malformedTicks : List (Label Unit) := List.replicate 10 (.proc ⟨(), (), 1, 0#32⟩)

/-- The malformed chain comes last, and is reported. -/
theorem evaluation_errors_reported_iff_last :
    let labels := Label.process 64 ⟨⟨0#32, 0#32, 0#32⟩, []⟩ false :: malformedTicks
    ∃ s u, run (sysStep Platform.tests) (Sys.init Platform.tests) (malformedRegistered 7) = some s ∧
      run (sysStep Platform.tests) s labels = some u ∧ ReturnsCode Platform.tests u negEinval ∧
      let met := trace (sysStep Platform.tests) (recordsMet Platform.tests) s labels
      ((negEinval ≠ 0 ↔ ∃ m ∈ met, m.Malformed) ↔
        (∀ m ∈ met, ¬m.Malformed) ∨ LastMalformed met) := by
  intro labels
  obtain ⟨s, u, hreach, hrun, hreturns⟩ : ∃ s u,
      run (sysStep Platform.tests) (Sys.init Platform.tests) (malformedRegistered 7) = some s ∧
      run (sysStep Platform.tests) s labels = some u ∧ ReturnsCode Platform.tests u negEinval :=
    ⟨_, _, rfl, rfl, ⟨(), (), 1, 0#32⟩, _, rfl, rfl, rfl⟩
  have hlabels : ∀ l ∈ malformedTicks, l.InFlight := by
    simp [malformedTicks, Label.InFlight]
  refine ⟨s, u, hreach, hrun, hreturns, ?_⟩
  exact ((evaluation_errors_reported_iff Platform.tests hreach hlabels hrun).1 _ hreturns).1

/-- **An evaluation error is lost**: behind the malformed record comes one that is well
formed, and the dispatch returns 0. -/
theorem evaluation_error_lost :
    ∃ s u, run (sysStep Platform.tests) (Sys.init Platform.tests) (malformedRegistered 1) = some s ∧
      run (sysStep Platform.tests) s
        (.process 64 ⟨⟨0#32, 0#32, 0#32⟩, []⟩ false :: malformedTicks) = some u ∧
      ReturnsCode Platform.tests u 0 ∧
      ∃ i ∈ s.pm.listed Platform.tests, (s.pm.nodes i).enabled = true ∧
        (s.pm.nodes i).Malformed := by
  refine ⟨_, _, rfl, rfl, ⟨⟨(), (), 1, 0#32⟩, _, rfl, rfl, rfl⟩, 0, ?_, rfl, malformedChain, rfl,
    rfl, ?_⟩
  · decide
  · exact ⟨by decide, _, _, rfl, by simp [StepFilterOp.Initial]⟩

end StepPipeline
