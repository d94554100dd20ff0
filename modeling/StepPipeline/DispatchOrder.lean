import StepPipeline.DispatchReturns

/-!
# The order of dispatch

Which records a `step_pm_process` in flight visits while other threads register,
subscribe, enable and disable.

* `Visit` and `visitOf` — what the loop body does with one record, read off the
  state and the label of the step that does it;
* `Position` — **the traversal invariant**: for every program counter, where the
  prefetched successor stands in the list as it is now;
* `sysStep_dispatching` — every step keeps it, whoever takes the step;
* `dispatch_order` — hence the records are visited in stable priority order, none
  of them twice and none of those lost that were listed at the start, a chain is
  entered exactly on an enabled record with a verdict other than zero, and the
  dispatch comes to an end.

The successor is fetched before the lock is released, and the list may grow right
behind the current record meanwhile.  Records linked in there lie behind the
traversal (`Cursor.grow`); everything it owes still lies ahead of it.

## Which order is meant

Records may be linked in while the traversal is under way, so there is no one list to compare the
visits with.  What can be said is: at every moment the records visited so far are a subsequence of
the list as it is then, in which priorities and ties are in order, and what was listed at the
start and not visited yet lies ahead.  A record registered meanwhile is visited if it was linked
in ahead of the successor already fetched, and not otherwise; both are allowed, and the theorem
promises neither.  A clear is excluded: it makes "listed at the start" meaningless, and what it
does to a traversal is the subject of `CallbackIdentity`.
-/

namespace StepPipeline

open IntrusiveList PriorityOrder LabelledRun

variable {Ω : Type}

/-! ### Visits -/

/-- A visit of the loop body: the record, its enabled flag at that time, and the
match verdict computed for it. -/
structure Visit where
  slot : ℕ
  enabled : Bool
  verdict : ℤ
  deriving DecidableEq, Repr

/-- **The decisions a visit calls for**: nothing on a disabled record, and on an enabled one the
chain exactly when the verdict is not zero.  This is the specification the log is compared with;
it knows nothing of locks or of the loop. -/
def Visit.decisions (v : Visit) : List Event :=
  .visit v.slot v.enabled ::
    if v.enabled then
      .verdict v.slot v.verdict ::
        if v.verdict = 0 then [] else [.execute v.slot, .chainDone v.slot]
    else []

/-- The verdict for the record a traversal stands at.  Where the lookup leaves defined behaviour
there is none, and the 0 stands for nothing; the theorem speaks of runs that have not. -/
def verdictAt (P : Platform) (s : Sys Ω) (p : Proc Ω) (inp : Inputs Ω) : ℤ :=
  match lookupVerdict P s.pm.cache (s.pm.nodes p.pnode) p.mes p.mesAddr p.rc inp with
  | .ok r => r.1.value
  | .error _ => 0

/-- The visit a step carries out, if it is one of the loop body.  Collected over a run by `trace`,
this gives the visits in the order in which they are made. -/
def visitOf (P : Platform) (s : Sys Ω) : Label Ω → List Visit
  | .proc inp =>
      match s.proc with
      | none => []
      | some p =>
          match p.pc with
          | .visit => [⟨p.pnode, (s.pm.nodes p.pnode).enabled, verdictAt P s p inp⟩]
          | _ => []
  | _ => []

/-- The records visited. -/
def slots (visits : List Visit) : List ℕ := visits.map Visit.slot

/-- The mark of a chain in flight that the log still lacks.  With it, what the log has so far and
what the visits call for can be compared in the middle of a chain. -/
def Sys.unfinished (s : Sys Ω) : List Event :=
  match s.proc with
  | none => []
  | some p => if p.pc.InChain then [.chainDone p.pnode] else []

/-- What may happen while a `step_pm_process` is in flight: its own steps, and
every call of the other threads but `step_pm_clear`. -/
def Label.Meanwhile : Label Ω → Prop
  | .process _ _ _ => False
  | .proc _ => True
  | .other _ c => c ≠ .clear

section VisitOf

variable {P : Platform} {s : Sys Ω} {p : Proc Ω} {inp : Inputs Ω}

theorem visitOf_visit (hproc : s.proc = some p) (hpc : p.pc = .visit) :
    visitOf P s (.proc inp) =
      [⟨p.pnode, (s.pm.nodes p.pnode).enabled, verdictAt P s p inp⟩] := by
  simp [visitOf, hproc, hpc]

theorem visitOf_of_ne (hproc : s.proc = some p) (hpc : p.pc ≠ .visit) :
    visitOf P s (.proc inp) = [] := by
  rw [visitOf, hproc]
  dsimp only
  split
  · contradiction
  · rfl

theorem verdictAt_eq {v : Verdict} {cache : StepCache}
    (hv : lookupVerdict P s.pm.cache (s.pm.nodes p.pnode) p.mes p.mesAddr p.rc inp =
      .ok (v, cache)) : verdictAt P s p inp = v.value := by
  rw [verdictAt, hv]

theorem unfinished_of_inChain (hproc : s.proc = some p) (hpc : p.pc.InChain) :
    s.unfinished = [.chainDone p.pnode] := by
  simp only [Sys.unfinished, hproc, if_pos hpc]

theorem unfinished_of_not_inChain (hproc : s.proc = some p) (hpc : ¬p.pc.InChain) :
    s.unfinished = [] := by
  simp only [Sys.unfinished, hproc, if_neg hpc]

end VisitOf

/-! ### The traversal invariant -/

/-- **Where a traversal stands**, by program counter: `l` is the list as it is now,
`seen` the records visited so far, `owed` the records listed at the start.  Inside
a chain, and behind it until the lock is taken again, the traversal stands at the
successor it has prefetched. -/
def Position (l owed seen : List ℕ) (s : Sys Ω) : Prop :=
  match s.proc with
  | none => Cursor l seen none owed
  | some p =>
      match p.pc with
      | .lock | .head => seen = []
      | .visit => Cursor l seen (some p.pnode) owed ∧ p.tmp = s.pm.snode p.pnode
      | .call _ _ _ _ | .error _ _ _ _ _ | .subsHead | .subs _ _ | .subsNext _ | .relock =>
          Cursor l seen p.tmp owed
      | .tail => Cursor l seen none owed

section Position

variable {l l' owed seen : List ℕ} {s s' : Sys Ω} {p : Proc Ω}

theorem position_visit_iff (hproc : s.proc = some p) (hpc : p.pc = .visit) :
    Position l owed seen s ↔
      Cursor l seen (some p.pnode) owed ∧ p.tmp = s.pm.snode p.pnode := by
  rw [Position, hproc]
  simp only [hpc]

theorem position_chain_iff (hproc : s.proc = some p) (hpc : p.pc.InChain ∨ p.pc = .relock) :
    Position l owed seen s ↔ Cursor l seen p.tmp owed := by
  rw [Position, hproc]
  cases hp : p.pc with
  | lock | head | visit | tail =>
      rw [hp] at hpc
      exact absurd hpc (by simp [Pc.InChain])
  | _ => simp only [hp]

theorem position_tail_iff (hproc : s.proc = some p) (hpc : p.pc = .tail) :
    Position l owed seen s ↔ Cursor l seen none owed := by
  rw [Position, hproc]
  simp only [hpc]

theorem position_start_iff (hproc : s.proc = some p) (hpc : p.pc = .lock ∨ p.pc = .head) :
    Position l owed seen s ↔ seen = [] := by
  rw [Position, hproc]
  rcases hpc with hpc | hpc <;> simp only [hpc]

theorem position_of_chain {next : Option ℕ} (hproc : s.proc = some p)
    (hpc : p.pc.InChain ∨ p.pc = .relock) (htmp : p.tmp = next)
    (hcursor : Cursor l seen next owed) : Position l owed seen s :=
  (position_chain_iff hproc hpc).mpr (htmp ▸ hcursor)

/-- Going on at the successor a traversal stands at. -/
theorem position_goOn {next : Option ℕ} (hcursor : Cursor l seen next owed)
    (hproc : s.proc = some (p.goOn s.pm.snode next)) : Position l owed seen s := by
  cases next with
  | none => exact (position_tail_iff hproc rfl).mpr hcursor
  | some q => exact (position_visit_iff hproc rfl).mpr ⟨hcursor, rfl⟩

/-- **Other threads do not disturb a traversal**: the list may grow, except that
while the loop body is about to run the link fields stay as they are. -/
theorem Position.other (h : Position l owed seen s) (hlist : l' = l ∨ ∃ x, Extends l x l')
    (hproc : s'.proc = s.proc)
    (hsnode : ∀ p, s.proc = some p → p.pc = .visit → s'.pm.snode = s.pm.snode) :
    Position l' owed seen s' := by
  have hgrow : ∀ {next : Option ℕ}, Cursor l seen next owed → Cursor l' seen next owed := by
    intro next hcursor
    rcases hlist with rfl | ⟨x, hext⟩
    · exact hcursor
    · exact hcursor.grow hext
  rw [Position] at h ⊢
  rw [hproc]
  cases hp : s.proc with
  | none =>
      rw [hp] at h
      exact hgrow h
  | some p =>
      rw [hp] at h
      dsimp only at h ⊢
      cases hpc : p.pc with
      | lock | head =>
          rw [hpc] at h
          exact h
      | visit =>
          rw [hpc] at h
          refine ⟨hgrow h.1, ?_⟩
          rw [hsnode p hp hpc]
          exact h.2
      | _ =>
          rw [hpc] at h
          exact hgrow h

end Position

/-- **The invariant of a dispatch** that found the log `base` and the records
`owed`, once it has carried out `visits`. -/
structure Dispatching (P : Platform) (base : List Event) (owed : List ℕ) (s : Sys Ω)
    (visits : List Visit) : Prop where
  lock : LockDiscipline s
  /-- The visited records are a subsequence of the list as it is now, and as long
  as defined behaviour was not left the traversal stands where it should. -/
  registry : ∃ regs l, Represents P s.pm regs l ∧ (∀ x ∈ owed, x ∈ l) ∧
    (slots visits).Sublist l ∧ (s.fault = none → Position l owed (slots visits) s)
  /-- The decisions logged are those the visits call for. -/
  log : s.fault = none → ∃ new, s.log = base ++ new ∧
    new.filter Event.isDecision ++ s.unfinished = visits.flatMap Visit.decisions

/-! ### Every step keeps it -/

section Step

variable {P : Platform} {s s' : Sys Ω} {p : Proc Ω} {inp : Inputs Ω} {base : List Event}
  {owed l seen : List ℕ} {regs : List (StepNodeChain Ω × ℕ)} {visits : List Visit}

/-- The decisions a step of the work-queue thread logs are those its visit calls
for; the end of a chain is logged when the chain ends. -/
theorem ProcMove.decisions (hproc : s.proc = some p) (hmove : ProcMove P s p inp s')
    (hfault : s'.fault = none) :
    ∃ events, s'.log = s.log ++ events ∧
      s.unfinished ++ (visitOf P s (.proc inp)).flatMap Visit.decisions =
        events.filter Event.isDecision ++ s'.unfinished := by
  -- outside a chain nothing is unfinished, and only the loop body is a visit
  have hquiet : ¬p.pc.InChain → p.pc ≠ .visit →
      s.unfinished ++ (visitOf P s (.proc inp)).flatMap Visit.decisions = [] := by
    intro hin hne
    rw [unfinished_of_not_inChain hproc hin, visitOf_of_ne hproc hne]
    rfl
  have hchain : p.pc.InChain →
      s.unfinished ++ (visitOf P s (.proc inp)).flatMap Visit.decisions =
        [.chainDone p.pnode] := by
    intro hin
    rw [unfinished_of_inChain hproc hin, visitOf_of_ne hproc hin.ne_visit]
    rfl
  have hvisit : p.pc = .visit →
      s.unfinished ++ (visitOf P s (.proc inp)).flatMap Visit.decisions =
        Visit.decisions ⟨p.pnode, (s.pm.nodes p.pnode).enabled, verdictAt P s p inp⟩ := by
    intro heq
    rw [unfinished_of_not_inChain hproc (heq ▸ id), visitOf_visit hproc heq]
    simp
  cases hmove with
  | crash u => cases hfault
  | lock hpc m hm =>
      refine ⟨[], (List.append_nil _).symm, ?_⟩
      rw [hquiet (hpc ▸ id) (by simp [hpc]), unfinished_of_not_inChain rfl id]
      rfl
  | head hpc | relock hpc _ _ =>
      refine ⟨[], (List.append_nil _).symm, ?_⟩
      rw [hquiet (hpc ▸ id) (by simp [hpc]),
        unfinished_of_not_inChain rfl (Proc.goOn_not_inChain _ _ _)]
      rfl
  | skip hpc hoff =>
      refine ⟨_, rfl, ?_⟩
      rw [hvisit hpc, hoff,
        unfinished_of_not_inChain rfl (Proc.goOn_not_inChain _ _ _)]
      rfl
  | noMatch hpc hon v cache hv hzero =>
      refine ⟨_, rfl, ?_⟩
      have hevents := lookupVerdict_decisions hv
      rw [hvisit hpc, hon, verdictAt_eq hv]
      simp [Visit.decisions, Sys.unfinished, Pc.InChain, List.filter_cons, Event.isDecision, hzero,
        hevents]
  | enter hpc hon v cache chain hv hnonzero hnode =>
      refine ⟨_, List.append_assoc _ _ _, ?_⟩
      have hevents := lookupVerdict_decisions hv
      rw [hvisit hpc, hon, verdictAt_eq hv]
      simp [Visit.decisions, Sys.unfinished, Pc.InChain, List.filter_cons, Event.isDecision,
        hnonzero, hevents]
  | chain hpc p' hsame hpc' events hevents =>
      refine ⟨events, rfl, ?_⟩
      rw [hchain hpc, hevents, unfinished_of_inChain rfl hpc', hsame.pnode]
      rfl
  | chainDone hpc p' hsame hpc' =>
      refine ⟨_, rfl, ?_⟩
      rw [hchain hpc, unfinished_of_not_inChain rfl (hpc' ▸ id)]
      rfl
  | tail hpc =>
      refine ⟨_, rfl, ?_⟩
      rw [hquiet (hpc ▸ id) (by simp [hpc])]
      cases p.free <;> rfl

theorem slots_visitOf_visit (hproc : s.proc = some p) (hpc : p.pc = .visit) :
    slots (visits ++ visitOf P s (.proc inp)) = slots visits ++ [p.pnode] := by
  simp [slots, visitOf_visit hproc hpc]

theorem slots_visitOf_of_ne (hproc : s.proc = some p) (hpc : p.pc ≠ .visit) :
    slots (visits ++ visitOf P s (.proc inp)) = slots visits := by
  simp [slots, visitOf_of_ne hproc hpc]

/-- A step of the work-queue thread passes the record it visits and otherwise stays where it is.
The prefetched successor is a link of the list as it was when it was read, and `Position` says why
it still is one: the mutex is held in between. -/
theorem ProcMove.position (hrep : Represents P s.pm regs l) (hproc : s.proc = some p)
    (hsub : (slots visits).Sublist l) (hpos : Position l owed (slots visits) s)
    (howed : ∀ x ∈ owed, x ∈ l) (hmove : ProcMove P s p inp s') :
    (slots (visits ++ visitOf P s (.proc inp))).Sublist l ∧
      (s'.fault = none →
        Position l owed (slots (visits ++ visitOf P s (.proc inp))) s') := by
  -- behind the loop body the traversal stands at the successor it has prefetched
  have hpass : p.pc = .visit →
      Cursor l (slots (visits ++ visitOf P s (.proc inp))) p.tmp owed := by
    intro hpc
    obtain ⟨hcursor, htmp⟩ := (position_visit_iff hproc hpc).mp hpos
    rw [slots_visitOf_visit hproc hpc, htmp]
    exact hcursor.pass hrep.holds
  have hstay : p.pc ≠ .visit →
      slots (visits ++ visitOf P s (.proc inp)) = slots visits := slots_visitOf_of_ne hproc
  have hsub' : (slots (visits ++ visitOf P s (.proc inp))).Sublist l := by
    by_cases hpc : p.pc = .visit
    · exact (hpass hpc).sublist
    · rw [hstay hpc]
      exact hsub
  refine ⟨hsub', fun hfault => ?_⟩
  cases hmove with
  | crash u => cases hfault
  | lock hpc m hm =>
      rw [hstay (by simp [hpc])]
      rw [Position]
      exact (position_start_iff hproc (.inl hpc)).mp hpos
  | head hpc =>
      rw [hstay (by simp [hpc]), (position_start_iff hproc (.inr hpc)).mp hpos]
      refine position_goOn ?_ rfl
      rw [hrep.holds.head_eq]
      exact Cursor.start howed
  | skip hpc _ => exact position_goOn (hpass hpc) rfl
  | noMatch hpc => exact position_of_chain rfl (.inr rfl) rfl (hpass hpc)
  | enter hpc => exact position_of_chain rfl (.inl trivial) rfl (hpass hpc)
  | chain hpc p' hsame hpc' _ _ =>
      rw [hstay hpc.ne_visit]
      exact position_of_chain rfl (.inl hpc') hsame.tmp
        ((position_chain_iff hproc (.inl hpc)).mp hpos)
  | chainDone hpc p' hsame hpc' =>
      rw [hstay hpc.ne_visit]
      exact position_of_chain rfl (.inr hpc') hsame.tmp
        ((position_chain_iff hproc (.inl hpc)).mp hpos)
  | relock hpc m hm =>
      rw [hstay (by simp [hpc])]
      have hcursor := (position_chain_iff hproc (.inr hpc)).mp hpos
      have hsnode := (PmState.account_sameRegistry P s.pm p.pnode p.instr inp.cycles).snode
      exact position_goOn hcursor (by rw [hsnode])
  | tail hpc =>
      rw [hstay (by simp [hpc])]
      exact (position_tail_iff hproc hpc).mp hpos

/-- Only calls that lock the registry write link fields. -/
theorem apiCall_snode_of_not_locks {pm : PmState Ω} {c : ApiCall Ω} (hc : ¬c.locks) :
    (apiCall P pm c).pm.snode = pm.snode := by
  have hset : ∀ on handle, (stepPmSetEnabled P pm on handle).pm.snode = pm.snode := by
    intro on handle
    obtain ⟨nodes, hpm, -⟩ := stepPmSetEnabled_frame P pm on handle
    rw [hpm]
  cases c with
  | enable handle => exact hset true handle
  | disable handle => exact hset false handle
  | _ => exact absurd rfl hc

/-- Calls of other threads take no decisions of the dispatch loop. -/
theorem apiCall_decisions (pm : PmState Ω) (c : ApiCall Ω) :
    (apiCall P pm c).events.filter Event.isDecision = [] := by
  rw [List.filter_eq_nil_iff]
  intro e he
  have hinit := apiCall_events P pm c e he
  cases e <;> simp_all [Event.isInit, Event.isDecision]

/-- A call of another thread lengthens the list or leaves it, and cannot touch the
link fields while the loop body is about to run. -/
theorem Position.afterCall {t : Tid} {c : ApiCall Ω} (hlock : LockDiscipline s)
    (ht : t ≠ workQueueTid) (hlocks : c.locks → s.regAccess.lock t ≠ none)
    (hlist : l' = l ∨ Extends l s.pm.handleCounter l') (h : Position l owed seen s) :
    Position l' owed seen (s.afterCall (apiCall P s.pm c)) := by
  refine h.other (hlist.imp_right fun hext => ⟨_, hext⟩) rfl fun p hproc hpc => ?_
  have hquiet := not_locks_of_locked hlock hproc (hpc ▸ trivial) ht hlocks
  exact apiCall_snode_of_not_locks hquiet

/-- **The step lemma of dispatch.** Whoever takes the step, the visits made so far and the visit
this step makes, if any, are those of a traversal that is where it should be. -/
theorem sysStep_dispatching {label : Label Ω} (h : Dispatching P base owed s visits)
    (hlabel : label.Meanwhile) (hstep : sysStep P s label = some s') :
    Dispatching P base owed s' (visits ++ visitOf P s label) := by
  obtain ⟨regs, l, hrep, howed, hsub, hpos⟩ := h.registry
  obtain ⟨hfault, hmove⟩ := sysStep_move hstep
  obtain ⟨new, hlog, hdec⟩ := h.log hfault
  have hlock' := sysStep_lockDiscipline h.lock hstep
  cases hmove with
  | process _ _ _ _ => exact absurd hlabel id
  | @proc inp p _ hproc hmove =>
      obtain ⟨hsub', hpos'⟩ := hmove.position hrep hproc hsub (hpos hfault) howed
      refine ⟨hlock', ⟨regs, l, hrep.of_sameRegistry hmove.sameRegistry, howed, hsub', hpos'⟩,
        fun hfault' => ?_⟩
      obtain ⟨events, hevents, hsplit⟩ := hmove.decisions hproc hfault'
      refine ⟨new ++ events, by rw [hevents, hlog, List.append_assoc], ?_⟩
      calc (new ++ events).filter Event.isDecision ++ s'.unfinished
          = new.filter Event.isDecision ++
              (events.filter Event.isDecision ++ s'.unfinished) := by
            rw [List.filter_append, List.append_assoc]
        _ = (new.filter Event.isDecision ++ s.unfinished) ++
              (visitOf P s (.proc inp)).flatMap Visit.decisions := by
            rw [← hsplit, List.append_assoc]
        _ = (visits ++ visitOf P s (.proc inp)).flatMap Visit.decisions := by
            rw [hdec, List.flatMap_append]
  | other t c ht hlocks hheap =>
      -- the list may grow anywhere, and what is owed is still ahead
      obtain ⟨l', hrep', hlist⟩ := apiCall_represents hrep c
      have hlist' := hlist hlabel
      have hsubl : l.Sublist l' := by
        rcases hlist' with rfl | hext
        · exact List.Sublist.refl _
        · exact hext.sublist
      have hvisits : visits ++ visitOf P s (.other t c) = visits := List.append_nil _
      rw [hvisits]
      refine ⟨hlock', ⟨_, l', hrep', fun x hx => hsubl.subset (howed x hx), hsub.trans hsubl,
        fun _ => (hpos hfault).afterCall h.lock ht hlocks hlist'⟩, fun _ => ?_⟩
      refine ⟨new ++ (apiCall P s.pm c).events, ?_, ?_⟩
      · rw [Sys.afterCall, hlog, List.append_assoc]
      · rw [List.filter_append, apiCall_decisions, List.append_nil]
        exact hdec

end Step

/-! ### Whole dispatches -/

section Run

variable {P : Platform} {s₀ s : Sys Ω} {p : Proc Ω} {labels : List (Label Ω)}

/-- Before it looks at the list, a dispatch has visited nothing and owes
everything listed. -/
theorem dispatching_start (h : SysInvariant P s₀) (hproc : s₀.proc = some p)
    (hpc : p.pc = .lock ∨ p.pc = .head) :
    Dispatching P s₀.log (s₀.pm.listed P) s₀ [] := by
  obtain ⟨regs, l, hrep⟩ := h.registry
  have hin : ¬p.pc.InChain := by
    rcases hpc with hpc | hpc <;> rw [hpc] <;> exact id
  refine ⟨h.lock, ⟨regs, l, hrep, fun x hx => hrep.listed_eq ▸ hx, List.nil_sublist _,
    fun _ => (position_start_iff hproc hpc).mpr rfl⟩, fun _ => ⟨[], ?_, ?_⟩⟩
  · exact (List.append_nil _).symm
  · rw [unfinished_of_not_inChain hproc hin]
    rfl

/-- **The order of dispatch under concurrent registration.**  From any reachable
system with a `step_pm_process` that has not looked at the list yet, and for any
interleaving of its steps with calls of other threads other than
`step_pm_clear`: no record is visited twice; the visits are in the order of
priority, and of registration for equal priorities; the decisions taken are
exactly those the enabled flags and the verdicts at the visits call for; once it
has returned, every record listed at the start has been visited once; and it does
return, short of undefined behaviour, as soon as its thread is left alone. -/
theorem dispatch_order (hreach : ReachableSys P s₀) (hproc : s₀.proc = some p)
    (hpc : p.pc = .lock ∨ p.pc = .head) (hlabels : ∀ label ∈ labels, label.Meanwhile)
    (hrun : run (sysStep P) s₀ labels = some s) :
    let visits := trace (sysStep P) (visitOf P) s₀ labels
    (slots visits).Nodup ∧
      (slots visits).Pairwise (Before s.pm.priorityOf (· < ·)) ∧
      (s.fault = none →
        (∃ new, s.log = s₀.log ++ new ∧
          new.filter Event.isDecision ++ s.unfinished = visits.flatMap Visit.decisions) ∧
        (s.proc = none → ∀ x ∈ s₀.pm.listed P, (slots visits).count x = 1)) ∧
      ∀ inputs : ℕ → Inputs Ω, ∃ n t,
        run (sysStep P) s ((List.range n).map fun i => Label.proc (inputs i)) = some t ∧
          (t.proc = none ∨ t.fault ≠ none) := by
  intro visits
  have hmeets : Meets (sysStep P) (fun _ label => label.Meanwhile) s₀ labels :=
    meets_of_forall_mem fun label hmem _ => hlabels label hmem
  have hend : Dispatching P s₀.log (s₀.pm.listed P) s visits :=
    run_trace_invariant (fun _ _ _ _ hI hlabel hstep => sysStep_dispatching hI hlabel hstep)
      (dispatching_start hreach.sysInvariant hproc hpc) hmeets hrun
  obtain ⟨regs, l, hrep, -, hsub, hpos⟩ := hend.registry
  have hnodup : (slots visits).Nodup := hrep.holds.nodup.sublist hsub
  have hreturn : ReturnInvariant P s := run_returnInvariant hreach.returnInvariant hrun
  refine ⟨hnodup, hrep.sorted.sublist hsub, fun hfault => ⟨hend.log hfault, ?_⟩,
    process_returns hreturn⟩
  intro hdone x hx
  have hcursor : Cursor l (slots visits) none (s₀.pm.listed P) := by
    simpa only [Position, hdone] using hpos hfault
  exact List.count_eq_one_of_mem hnodup (hcursor.2 x hx)

/-- Two chains are registered, the second one of higher priority; while it runs a
third one of still higher priority is registered. -/
theorem dispatch_order_two :
    let tick : Label Unit := .proc ⟨(), (), 1, 0#32⟩
    let register (pri : ℕ) : Label Unit := .other 1 (.register silentChain pri fun _ => ())
    let before := [register 1, register 7, .process 64 ⟨⟨0#32, 0#32, 0#32⟩, []⟩ false]
    let labels := List.replicate 4 tick ++ register 9 :: List.replicate 11 tick
    ∃ s₀ s : Sys Unit,
      run (sysStep Platform.tests) (Sys.init Platform.tests) before = some s₀ ∧
        run (sysStep Platform.tests) s₀ labels = some s ∧
        let visits := trace (sysStep Platform.tests) (visitOf Platform.tests) s₀ labels
        slots visits = [1, 0] ∧ ∀ x ∈ s₀.pm.listed Platform.tests, (slots visits).count x = 1 := by
  intro tick register before labels
  refine ⟨_, _, rfl, rfl, rfl, ?_⟩
  have hbefore : ∀ label ∈ before, label.InRange Platform.tests := by
    simp [before, register, Label.InRange, ApiCall.HandleBelow]
  have hlabels : ∀ label ∈ labels, label.Meanwhile := by
    simp [labels, tick, register, Label.Meanwhile]
  have horder := dispatch_order ⟨before, hbefore, rfl⟩ rfl (.inl rfl) hlabels rfl
  exact (horder.2.2.1 rfl).2 rfl

end Run

end StepPipeline
