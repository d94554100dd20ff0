import StepPipeline.CacheCoherence

/-!
# The filter cache and nodes with handlers

An `evaluate_handler` or a `matched_handler` may look at the whole measurement, but
the cache is looked up by the filter word and the handle alone, and a hit fires no
`matched_handler`.  What is observed of a run is therefore not always what would be
observed without the cache.

* `freshDecision`, `FiresMatched` — a fresh evaluation of a node: what it decides, and
  whether it fires the `matched_handler`;
* `CacheDecidesAlike` — the condition on the state before a visit: a record found was
  made for a measurement decided alike, and no `matched_handler` would be fired now;
* `filterCache_transparent_iff` — the dispatcher without a cache is observed to do the
  same **exactly** when every step of the run meets the condition;
* `sameFilterWord` — two measurements with one filter word that are decided apart.

## The condition and its exactness

A lookup that does not agree with a fresh evaluation shows at once, in the verdict or in a
`matched_handler` that is not called, and nothing observed later can take that back: logs only
grow.  That is why the condition need not be weakened for runs that differ and become alike again;
there are none.  It is put on the state before each visit, in terms of what the node decides on
two measurements: the present one, and the one for which the record in the table was made, which
the history variable `madeFor` keeps.  What the lookup itself answers does not occur in it.
-/

namespace StepPipeline

open IntrusiveList LabelledRun

variable {Ω : Type}

/-! ### Fresh evaluations -/

/-- A handler that is a function of the measurement: it leaves it alone, and its answer does not
depend on anything else.  Without this a handler may answer differently from one call to the next,
and a cache of its answers could not be right even in principle. -/
def FnPtr.Pure (f : FnPtr (StepNodeEvaluate Ω)) : Prop :=
  ∀ world world' mes handle inst,
    f.code world mes handle inst = ((f.code world' mes handle inst).1, mes)

/-- A node whose handlers are functions of the measurement. -/
def StepNode.Pure (n : StepNode Ω) : Prop :=
  (∀ f, n.callbacks.evaluateHandler = some f → f.Pure) ∧
    ∀ g, n.callbacks.matchedHandler = some g → g.Pure

/-- **What a fresh evaluation decides**: the evaluate handler or else the filter chain, followed
by the matched handler.  It is the evaluation of the source on a measurement of one's choice. -/
def freshDecision (n : StepNode Ω) (mesAddr handle : ℕ) (inp : Inputs Ω)
    (mes : StepMeasurement) : Except UndefinedBehaviour ℤ :=
  (evaluateNode n mes mesAddr handle 0 inp).map Verdict.value

/-- **A fresh evaluation fires the matched handler**: there is one, and the stage
before it matches. -/
def FiresMatched (n : StepNode Ω) (mesAddr handle : ℕ) (inp : Inputs Ω)
    (mes : StepMeasurement) : Prop :=
  n.callbacks.matchedHandler ≠ none ∧
    ∃ u, evaluateFilter n mes mesAddr handle 0 inp.world = .ok u ∧ u.value ≠ 0

section Fresh

variable {n : StepNode Ω} {mes : StepMeasurement} {mesAddr mesAddr' handle : ℕ} {rc rc' : ℤ}
  {inp inp' : Inputs Ω} {v : Verdict}

/-- The filter stage of a pure node leaves the measurement alone. -/
theorem evaluateFilter_mes (hn : n.Pure) {world : Ω}
    (h : evaluateFilter n mes mesAddr handle rc world = .ok v) : v.mes = mes := by
  unfold evaluateFilter at h
  cases hf : n.callbacks.evaluateHandler with
  | none =>
      simp only [hf] at h
      obtain ⟨r, -, rfl⟩ := exists_of_map_eq_ok h
      rfl
  | some f =>
      simp only [hf] at h
      obtain rfl := Except.ok.inj h
      rw [hn.1 f hf world world]

/-- …and looks at nothing else. -/
theorem evaluateFilter_value (hn : n.Pure) (world world' : Ω) :
    (evaluateFilter n mes mesAddr handle rc world).map Verdict.value =
      (evaluateFilter n mes mesAddr' handle rc' world').map Verdict.value := by
  unfold evaluateFilter
  cases hf : n.callbacks.evaluateHandler with
  | none => cases stepFiltEvaluate (some n.filters) (some mes) <;> rfl
  | some f =>
      dsimp only
      rw [hn.1 f hf world world']
      rfl

/-- The matched handler of a pure node leaves the measurement alone. -/
theorem applyMatched_mes (hn : n.Pure) (world : Ω) :
    (applyMatched n mesAddr handle world v).mes = v.mes := by
  unfold applyMatched
  cases hg : n.callbacks.matchedHandler with
  | none => rfl
  | some g =>
      dsimp only
      split
      · rfl
      · rw [hn.2 g hg world world]

/-- …and looks at nothing else. -/
theorem applyMatched_value (hn : n.Pure) (world world' : Ω) {w : Verdict}
    (hvalue : v.value = w.value) (hmes : v.mes = w.mes) :
    (applyMatched n mesAddr handle world v).value =
      (applyMatched n mesAddr' handle world' w).value := by
  unfold applyMatched
  cases hg : n.callbacks.matchedHandler with
  | none => exact hvalue
  | some g =>
      dsimp only
      rw [hvalue, hmes, hn.2 g hg world world']
      split
      · exact hvalue
      · rfl

theorem evaluateNode_mes (hn : n.Pure)
    (h : evaluateNode n mes mesAddr handle rc inp = .ok v) : v.mes = mes := by
  obtain ⟨u, hu, rfl⟩ := exists_of_map_eq_ok h
  exact (applyMatched_mes hn _).trans (evaluateFilter_mes hn hu)

/-- **The decision of a pure node is a function of the measurement.** -/
theorem evaluateNode_value (hn : n.Pure) :
    (evaluateNode n mes mesAddr handle rc inp).map Verdict.value =
      freshDecision n mesAddr' handle inp' mes := by
  unfold freshDecision evaluateNode
  have hfilter : (evaluateFilter n mes mesAddr handle rc inp.world).map Verdict.value =
      (evaluateFilter n mes mesAddr' handle 0 inp'.world).map Verdict.value :=
    evaluateFilter_value hn _ _
  cases hu : evaluateFilter n mes mesAddr handle rc inp.world with
  | error u =>
      cases hw : evaluateFilter n mes mesAddr' handle 0 inp'.world with
      | error w => rw [hu, hw] at hfilter; exact hfilter
      | ok w => rw [hu, hw] at hfilter; cases hfilter
  | ok u =>
      cases hw : evaluateFilter n mes mesAddr' handle 0 inp'.world with
      | error w => rw [hu, hw] at hfilter; cases hfilter
      | ok w =>
          rw [hu, hw] at hfilter
          refine congrArg Except.ok (applyMatched_value hn _ _ (Except.ok.inj hfilter) ?_)
          rw [evaluateFilter_mes hn hu, evaluateFilter_mes hn hw]

/-- What is observed of an evaluation is the call of the matched handler. -/
theorem observed_evaluateNode_iff (h : evaluateNode n mes mesAddr handle 0 inp = .ok v) :
    observed v.events = [] ↔ ¬FiresMatched n mesAddr handle inp mes := by
  obtain ⟨u, hu, rfl⟩ := exists_of_map_eq_ok h
  have hquiet : observed u.events = [] := by
    unfold evaluateFilter at hu
    split at hu
    · obtain rfl := Except.ok.inj hu
      rfl
    · obtain ⟨r, -, rfl⟩ := exists_of_map_eq_ok hu
      rfl
  have hfires : FiresMatched n mesAddr handle inp mes ↔
      n.callbacks.matchedHandler ≠ none ∧ u.value ≠ 0 := by
    simp [FiresMatched, hu]
  rw [hfires]
  unfold applyMatched
  cases hg : n.callbacks.matchedHandler with
  | none => simp [hquiet]
  | some g =>
      dsimp only
      by_cases hzero : u.value = 0
      · simp [hzero, hquiet]
      · rw [if_neg hzero, observed_append, hquiet]
        simp [hzero, observed, Event.isObserved]

end Fresh

/-! ### The condition -/

/-- **The condition on a visit** of a record with node `n`.  A record found in the cache was made
for a measurement that the node decides like the present one, and the matched handler would not be
fired; or none is found, and there is a slot for what is evaluated. -/
def DecidesAlike (pm : PmState Ω) (p : Proc Ω) (inp : Inputs Ω) (n : StepNode Ω) : Prop :=
  let handle := (pm.nodes p.pnode).handle
  match pm.cache.lookup p.mes.header.filterBits handle with
  | some found =>
      freshDecision n p.mesAddr handle inp p.mes =
          freshDecision n p.mesAddr handle inp found.madeFor ∧
        ¬FiresMatched n p.mesAddr handle inp p.mes
  | none =>
      (∃ value, freshDecision n p.mesAddr handle inp p.mes = .ok value) →
        ∃ slot, pm.cache.insertSlot = some slot

/-- …as a condition on the steps of the system. -/
def CacheDecidesAlike (s : Sys Ω) : Label Ω → Prop
  | .proc inp => ∀ p, s.proc = some p → p.pc = .visit →
      (s.pm.nodes p.pnode).enabled = true →
      ∀ chain, (s.pm.nodes p.pnode).node = some chain → DecidesAlike s.pm p inp chain.head
  | _ => True

/-- What a live record keeps: the decision on the measurement it was made for, which
has the filter word of its key. -/
def MadeFor (n : StepNode Ω) (handle : ℕ) (filter : BitVec 32) (result : ℤ)
    (madeFor : StepMeasurement) : Prop :=
  madeFor.header.filterBits = filter ∧
    ∀ mesAddr inp, freshDecision n mesAddr handle inp madeFor = .ok result

section Condition

variable {P : Platform} {s s' : Sys Ω} {p : Proc Ω} {inp : Inputs Ω}

theorem madeFor_of_evaluateNode {n : StepNode Ω} {mes : StepMeasurement}
    {mesAddr handle : ℕ} {rc : ℤ} {v : Verdict} (hn : n.Pure)
    (hv : evaluateNode n mes mesAddr handle rc inp = .ok v) :
    MadeFor n handle v.mes.header.filterBits v.value v.mes := by
  refine ⟨rfl, fun mesAddr' inp' => ?_⟩
  have hvalue : (evaluateNode n mes mesAddr handle rc inp).map Verdict.value =
      freshDecision n mesAddr' handle inp' mes := evaluateNode_value hn
  rw [evaluateNode_mes hn hv, ← hvalue, hv]
  rfl

/-- **Every step keeps the records what they were made as.** -/
theorem sysStep_madeFor (hon : P.filterCache = true) {label : Label Ω}
    (h : CacheInvariant P StepNode.Pure MadeFor s)
    (hlabel : ClientCall StepNode.Pure s label) (hstep : sysStep P s label = some s') :
    CacheInvariant P StepNode.Pure MadeFor s' := by
  refine sysStep_cacheInvariant ?_ hon h hlabel hstep
  exact fun n mes mesAddr handle rc inp v hn hv => madeFor_of_evaluateNode hn hv

/-- A record found agrees exactly if the node decides both measurements alike and
would not fire its matched handler. -/
theorem lookupAgrees_found_iff (hon : P.filterCache = true) {chain : StepNodeChain Ω}
    (hnode : (s.pm.nodes p.pnode).node = some chain) (hpure : chain.head.Pure)
    {found : StepCacheRec}
    (hfound : s.pm.cache.lookup p.mes.header.filterBits (s.pm.nodes p.pnode).handle =
      some found)
    (hmade : freshDecision chain.head p.mesAddr (s.pm.nodes p.pnode).handle inp found.madeFor =
      .ok found.result) :
    LookupAgrees P s.pm p inp ↔
      freshDecision chain.head p.mesAddr (s.pm.nodes p.pnode).handle inp p.mes =
          freshDecision chain.head p.mesAddr (s.pm.nodes p.pnode).handle inp found.madeFor ∧
        ¬FiresMatched chain.head p.mesAddr (s.pm.nodes p.pnode).handle inp p.mes := by
  have heval : evaluateRecord (s.pm.nodes p.pnode) p.mes p.mesAddr 0 inp =
      evaluateNode chain.head p.mes p.mesAddr (s.pm.nodes p.pnode).handle 0 inp := by
    rw [evaluateRecord, hnode]
  rw [lookupAgrees_hit_iff hon hfound, heval, hmade]
  constructor
  · rintro ⟨w, hw, hvalue, -, hevents⟩
    refine ⟨?_, (observed_evaluateNode_iff hw).mp hevents⟩
    rw [freshDecision, hw, hvalue]
    rfl
  · rintro ⟨hvalue, hquiet⟩
    obtain ⟨w, hw, hresult⟩ := exists_of_map_eq_ok hvalue
    exact ⟨w, hw, hresult.symm, (evaluateNode_mes hpure hw).symm,
      (observed_evaluateNode_iff hw).mpr hquiet⟩

/-- The condition says that the lookup agrees with a fresh evaluation. -/
theorem lookupAgrees_iff_decidesAlike (hon : P.filterCache = true)
    (h : CacheInvariant P StepNode.Pure MadeFor s)
    (hvisit : (s.pm.nodes p.pnode).enabled = true) {chain : StepNodeChain Ω}
    (hnode : (s.pm.nodes p.pnode).node = some chain) :
    LookupAgrees P s.pm p inp ↔ DecidesAlike s.pm p inp chain.head := by
  obtain ⟨-, hhandle, chain', hnode', hpure⟩ := h.visited hvisit
  obtain rfl : chain' = chain := Option.some.inj (hnode'.symm.trans hnode)
  unfold DecidesAlike
  dsimp only
  cases hfind : s.pm.cache.lookup p.mes.header.filterBits (s.pm.nodes p.pnode).handle with
  | some found =>
      obtain ⟨-, chain', hfoundNode, -, hmade⟩ := h.coherent.of_lookup hfind
      rw [hhandle, hnode] at hfoundNode
      obtain rfl := Option.some.inj hfoundNode
      exact lookupAgrees_found_iff hon hnode hpure hfind (hmade _ _)
  | none =>
      rw [lookupAgrees_miss_iff hon hfind, evaluateRecord, hnode]
      refine imp_congr_left ?_
      constructor
      · rintro ⟨w, hw⟩
        exact ⟨w.value, congrArg (Except.map Verdict.value) hw⟩
      · rintro ⟨value, hvalue⟩
        obtain ⟨w, hw, -⟩ := exists_of_map_eq_ok hvalue
        exact ⟨w, hw⟩

theorem visitAgrees_iff (hon : P.filterCache = true)
    (h : CacheInvariant P StepNode.Pure MadeFor s) (label : Label Ω) :
    VisitAgrees P s label ↔ CacheDecidesAlike s label := by
  cases label with
  | process _ _ _ => exact Iff.rfl
  | other _ _ => exact Iff.rfl
  | proc inp =>
      constructor
      · exact fun hagree p hproc hpc hvisit chain hnode =>
          (lookupAgrees_iff_decidesAlike hon h hvisit hnode).mp (hagree p hproc hpc hvisit)
      · intro hcond p hproc hpc hvisit
        obtain ⟨-, -, chain, hnode, -⟩ := h.visited hvisit
        exact (lookupAgrees_iff_decidesAlike hon h hvisit hnode).mpr
          (hcond p hproc hpc hvisit chain hnode)

end Condition

/-! ### Runs that differ stay different -/

/-- Two lists of `p`s, each with something behind it that is not `p`: a list that
starts with both shows that they are the same. -/
theorem eq_of_marked {α : Type*} {p : α → Bool} {xs ys rest rest' : List α} {a b : α}
    (hxs : ∀ x ∈ xs, p x = true) (hys : ∀ y ∈ ys, p y = true) (ha : p a = false)
    (hb : p b = false) (h : xs ++ a :: rest = ys ++ b :: rest') : xs = ys ∧ a = b := by
  have htake : ∀ {zs rest : List α} {c : α}, (∀ z ∈ zs, p z = true) → p c = false →
      (zs ++ c :: rest).takeWhile p = zs := by
    intro zs rest c hzs hc
    rw [List.takeWhile_append_of_pos hzs, List.takeWhile_cons_of_neg (by simp [hc]),
      List.append_nil]
  have heq : xs = ys := by rw [← htake hxs ha, h, htake hys hb]
  subst heq
  exact ⟨rfl, (List.cons.inj (List.append_cancel_left h)).1⟩

section Divergence

variable {P : Platform} {s s' t t' : Sys Ω} {p q : Proc Ω} {inp : Inputs Ω}

/-- What is observed of the loop body on an enabled record. -/
theorem visitStep_observed (hvisit : (s.pm.nodes p.pnode).enabled = true)
    {chain : StepNodeChain Ω} (hnode : (s.pm.nodes p.pnode).node = some chain) {v : Verdict}
    {cache : StepCache}
    (hv : lookupVerdict P s.pm.cache (s.pm.nodes p.pnode) p.mes p.mesAddr p.rc inp =
      .ok (v, cache)) :
    ∃ rest, observed (visitStep P s p inp).log =
      observed s.log ++ .visit p.pnode true ::
        (observed v.events ++ .verdict p.pnode v.value :: rest) := by
  have hverdict : ∀ rest, observed (s.log ++
      (.visit p.pnode true :: v.events ++ [.verdict p.pnode v.value]) ++ rest) =
      observed s.log ++ .visit p.pnode true ::
        (observed v.events ++ .verdict p.pnode v.value :: observed rest) := by
    intro rest
    simp only [List.cons_append, observed_append, observed_visit, List.append_assoc]
    rfl
  unfold visitStep
  simp only [hvisit, if_true, hv, hnode]
  split
  · exact ⟨observed [], by rw [← hverdict [], List.append_nil]⟩
  · exact ⟨_, hverdict [.execute p.pnode]⟩

theorem visitStep_error (hvisit : (s.pm.nodes p.pnode).enabled = true)
    {u : UndefinedBehaviour}
    (hv : lookupVerdict P s.pm.cache (s.pm.nodes p.pnode) p.mes p.mesAddr p.rc inp =
      .error u) : visitStep P s p inp = s.crash u := by
  unfold visitStep
  simp only [hvisit, if_true, hv]

/-- What has been observed stays observed. -/
theorem run_observed {labels : List (Label Ω)} (h : run (sysStep P) s labels = some s') :
    ∃ rest, observed s'.log = observed s.log ++ rest := by
  obtain ⟨new, hnew⟩ := run_log h
  exact ⟨observed new, by rw [← hnew, observed_append]⟩

/-- The verdict of an enabled record is observed in every run that goes on from
there. -/
theorem run_visit_ok (hvisit : (s.pm.nodes p.pnode).enabled = true)
    {chain : StepNodeChain Ω} (hnode : (s.pm.nodes p.pnode).node = some chain) {v : Verdict}
    {cache : StepCache}
    (hv : lookupVerdict P s.pm.cache (s.pm.nodes p.pnode) p.mes p.mesAddr p.rc inp =
      .ok (v, cache)) {labels : List (Label Ω)}
    (hrun : run (sysStep P) (visitStep P s p inp) labels = some s') :
    ∃ rest, observed s'.log = observed s.log ++ .visit p.pnode true ::
      (observed v.events ++ .verdict p.pnode v.value :: rest) := by
  obtain ⟨rest, hrest⟩ := visitStep_observed hvisit hnode hv
  obtain ⟨rest', hrest'⟩ := run_observed hrun
  refine ⟨rest ++ rest', ?_⟩
  rw [hrest', hrest]
  simp only [List.append_assoc, List.cons_append]

/-- Nothing is observed after a crash. -/
theorem run_visit_error (hvisit : (s.pm.nodes p.pnode).enabled = true)
    {u : UndefinedBehaviour}
    (hv : lookupVerdict P s.pm.cache (s.pm.nodes p.pnode) p.mes p.mesAddr p.rc inp =
      .error u) {labels : List (Label Ω)}
    (hrun : run (sysStep P) (visitStep P s p inp) labels = some s') :
    observed s'.log = observed s.log := by
  rw [visitStep_error hvisit hv] at hrun
  rw [run_of_fault (by simp [Sys.crash]) hrun]
  rfl

/-- A lookup leaves the measurement of a pure node alone. -/
theorem lookupVerdict_mes (hgood : ∀ chain, (s.pm.nodes p.pnode).node = some chain →
      chain.head.Pure) {v : Verdict} {cache : StepCache}
    (hv : lookupVerdict P s.pm.cache (s.pm.nodes p.pnode) p.mes p.mesAddr p.rc inp =
      .ok (v, cache)) : v.mes = p.mes := by
  have heval : ∀ v, evaluateRecord (s.pm.nodes p.pnode) p.mes p.mesAddr p.rc inp = .ok v →
      v.mes = p.mes := by
    intro v hv
    obtain ⟨chain, hnode, hv⟩ := evaluateRecord_eq_ok hv
    exact evaluateNode_mes (hgood chain hnode) hv
  cases lookupVerdict_move hv with
  | hit _ _ _ => rfl
  | miss _ _ _ hw _ _ => exact heval v hw
  | fresh _ _ hw => exact heval v hw

/-- If the evaluation fails, so does the lookup, unless it is a hit. -/
theorem lookupVerdict_error (hon : P.filterCache = true) {u u' : UndefinedBehaviour}
    (hl : lookupVerdict P s.pm.cache (s.pm.nodes p.pnode) p.mes p.mesAddr p.rc inp = .error u)
    (he : evaluateRecord (s.pm.nodes p.pnode) p.mes p.mesAddr p.rc inp = .error u') :
    u = u' := by
  cases hfind : s.pm.cache.lookup p.mes.header.filterBits (s.pm.nodes p.pnode).handle with
  | some found =>
      rw [lookupVerdict_hit hon hfind] at hl
      cases hl
  | none =>
      rw [lookupVerdict_miss hon hfind, he] at hl
      exact (Except.error.inj hl).symm

/-- Where everything but the cache looks alike, the dispatcher without a cache stands at the
same record with the same measurement, and evaluates it afresh. -/
theorem lookupVerdict_alike (P : Platform) (inp : Inputs Ω) (hst : s.blind = t.blind)
    (hpq : p.blind = q.blind) :
    t.pm.nodes q.pnode = s.pm.nodes p.pnode ∧
      lookupVerdict (P.withFilterCache false) t.pm.cache (t.pm.nodes q.pnode) q.mes q.mesAddr
          q.rc inp =
        (evaluateRecord (s.pm.nodes p.pnode) p.mes p.mesAddr q.rc inp).map
          fun v => (v, t.pm.cache) := by
  have hnodes : t.pm.nodes = s.pm.nodes := (congrArg (fun s => s.pm.nodes) hst).symm
  have hslot : q.pnode = p.pnode := (congrArg Proc.pnode hpq).symm
  have hmes : q.mes = p.mes := (congrArg Proc.mes hpq).symm
  have hmesAddr : q.mesAddr = p.mesAddr := (congrArg Proc.mesAddr hpq).symm
  have hrecord : t.pm.nodes q.pnode = s.pm.nodes p.pnode := by rw [hnodes, hslot]
  exact ⟨hrecord, by rw [lookupVerdict_off rfl, hrecord, hmes, hmesAddr]⟩

/-- **A lookup that does not agree shows.** If after a visit the two dispatchers go on to states
of which the same is observed, the lookup agreed.  The two go on separately here, so that nothing
is assumed of how they do. -/
theorem lookupAgrees_of_observed (hon : P.filterCache = true)
    (h : CacheInvariant P StepNode.Pure MadeFor s) (hst : s.blind = t.blind)
    (hpq : p.blind = q.blind) (hvisit : (s.pm.nodes p.pnode).enabled = true)
    {labels : List (Label Ω)}
    (hs : run (sysStep P) (visitStep P s p inp) labels = some s')
    (ht : run (sysStep (P.withFilterCache false))
      (visitStep (P.withFilterCache false) t q inp) labels = some t')
    (hobs : observed t'.log = observed s'.log) : LookupAgrees P s.pm p inp := by
  obtain ⟨-, -, chain, hnode, hpure⟩ := h.visited hvisit
  have hgood : ∀ chain', (s.pm.nodes p.pnode).node = some chain' → chain'.head.Pure := by
    intro chain' hnode'
    obtain rfl := Option.some.inj (hnode.symm.trans hnode')
    exact hpure
  have hslot : q.pnode = p.pnode := (congrArg Proc.pnode hpq).symm
  have hlog : observed t.log = observed s.log := (congrArg Sys.log hst).symm
  obtain ⟨hrecord, hfresh⟩ := lookupVerdict_alike P inp hst hpq
  have hblind : (evaluateRecord (s.pm.nodes p.pnode) p.mes p.mesAddr q.rc inp).map
      Verdict.blind =
      (evaluateRecord (s.pm.nodes p.pnode) p.mes p.mesAddr 0 inp).map Verdict.blind :=
    evaluateRecord_blind _ _ _ _ _ _
  rw [LookupAgrees, ← hblind]
  -- if one of the two leaves defined behaviour, its log ends before the verdict
  cases hl : lookupVerdict P s.pm.cache (s.pm.nodes p.pnode) p.mes p.mesAddr p.rc inp with
  | error u =>
      have hquiet := run_visit_error hvisit hl hs
      cases he : evaluateRecord (s.pm.nodes p.pnode) p.mes p.mesAddr q.rc inp with
      | error u' =>
          have hrc := evaluateRecord_blind (s.pm.nodes p.pnode) p.mes p.mesAddr q.rc p.rc inp
          cases he' : evaluateRecord (s.pm.nodes p.pnode) p.mes p.mesAddr p.rc inp with
          | ok w => rw [he, he'] at hrc; cases hrc
          | error u'' =>
              rw [he, he'] at hrc
              rw [lookupVerdict_error hon hl he']
              exact hrc.symm
      | ok w =>
          rw [he] at hfresh
          obtain ⟨rest, hrest⟩ := run_visit_ok (hrecord ▸ hvisit) (hrecord ▸ hnode) hfresh ht
          rw [hobs, hquiet, hlog] at hrest
          simp at hrest
  | ok r =>
      obtain ⟨v, cache⟩ := r
      obtain ⟨rest, hrest⟩ := run_visit_ok hvisit hnode hl hs
      cases he : evaluateRecord (s.pm.nodes p.pnode) p.mes p.mesAddr q.rc inp with
      | error u' =>
          rw [he] at hfresh
          have hquiet := run_visit_error (hrecord ▸ hvisit) hfresh ht
          rw [hobs, hrest, hlog] at hquiet
          simp at hquiet
      | ok w =>
          rw [he] at hfresh
          obtain ⟨rest', hrest'⟩ := run_visit_ok (hrecord ▸ hvisit) (hrecord ▸ hnode) hfresh ht
          rw [hobs, hrest, hlog, hslot] at hrest'
          have hboth := (List.cons.inj (List.append_cancel_left hrest')).2
          have hevaluation : ∀ {v : Verdict}, (∀ e ∈ v.events, e.isEvaluation = true) →
              ∀ e ∈ observed v.events, e.isEvaluation = true :=
            fun h e he => h e (List.mem_of_mem_filter he)
          obtain ⟨hevents, hvalue⟩ := eq_of_marked (hevaluation (lookupVerdict_events hl))
            (hevaluation (lookupVerdict_events hfresh)) rfl rfl hboth
          obtain ⟨chain', hnode', hw⟩ := evaluateRecord_eq_ok he
          refine congrArg Except.ok (verdict_blind_eq_iff.mpr ⟨?_, ?_, hevents⟩)
          · exact (Event.verdict.inj hvalue).2
          · rw [lookupVerdict_mes hgood hl, evaluateNode_mes (hgood chain' hnode') hw]

theorem sysStep_visit (h : sysStep P s (.proc inp) = some s') (hproc : s.proc = some p)
    (hpc : p.pc = .visit) : s' = visitStep P s p inp := by
  have hstep := procStep_of_sysStep h hproc
  rw [procStep_visit hpc] at hstep
  exact (Option.some.inj hstep).symm

/-- …as a fact about the first step of a run. -/
theorem visitAgrees_of_observed (hon : P.filterCache = true)
    (h : CacheInvariant P StepNode.Pure MadeFor s) (hst : s.blind = t.blind)
    {s₁ t₁ : Sys Ω} {label : Label Ω} (hs₁ : sysStep P s label = some s₁)
    (ht₁ : sysStep (P.withFilterCache false) t label = some t₁) {labels : List (Label Ω)}
    (hs : run (sysStep P) s₁ labels = some s')
    (ht : run (sysStep (P.withFilterCache false)) t₁ labels = some t')
    (hobs : observed t'.log = observed s'.log) : VisitAgrees P s label := by
  cases label with
  | process _ _ _ => trivial
  | other _ _ => trivial
  | proc inp =>
      intro p hproc hpc hvisit
      have hproc' : t.proc.map Proc.blind = some p.blind := by
        rw [← Option.map_some, ← hproc]
        exact (congrArg Sys.proc hst).symm
      obtain ⟨q, hq, hqp⟩ := Option.map_eq_some_iff.mp hproc'
      have hqpc : q.pc = .visit := (congrArg Proc.pc hqp).trans hpc
      obtain rfl := sysStep_visit hs₁ hproc hpc
      obtain rfl := sysStep_visit ht₁ hq hqpc
      exact lookupAgrees_of_observed hon h hst hqp.symm hvisit hs ht hobs

/-- **The same is observed only if every lookup agrees.** -/
theorem meets_visitAgrees_of_observed (hon : P.filterCache = true) {labels : List (Label Ω)}
    (h : CacheInvariant P StepNode.Pure MadeFor s) (hst : s.blind = t.blind)
    (hlabels : Meets (sysStep P) (ClientCall StepNode.Pure) s labels)
    (hs : run (sysStep P) s labels = some s')
    (ht : run (sysStep (P.withFilterCache false)) t labels = some t')
    (hobs : observed t'.log = observed s'.log) :
    Meets (sysStep P) (VisitAgrees P) s labels := by
  induction labels generalizing s t with
  | nil => trivial
  | cons label labels ih =>
      obtain ⟨s₁, hs₁, hs⟩ := (run_cons_eq_some _).mp hs
      obtain ⟨t₁, ht₁, ht⟩ := (run_cons_eq_some _).mp ht
      have hagree := visitAgrees_of_observed hon h hst hs₁ ht₁ hs ht hobs
      refine ⟨hagree, fun s₂ hs₂ => ?_⟩
      obtain rfl : s₁ = s₂ := Option.some.inj (hs₁.symm.trans hs₂)
      have halike := sysStep_alike hagree hst
      rw [hs₁, ht₁] at halike
      exact ih (sysStep_madeFor hon h hlabels.1 hs₁) (Option.some.inj halike)
        (hlabels.2 s₁ hs₁) hs ht

end Divergence

/-! ### When the cache is transparent -/

/-- **Transparency of the filter cache** for nodes whose handlers are functions of the
measurement: the dispatcher without a cache makes the same run and is observed to do
the same exactly when every step of the run meets `CacheDecidesAlike`. -/
theorem filterCache_transparent_iff {P : Platform} {s : Sys Ω} (hon : P.filterCache = true)
    {labels : List (Label Ω)}
    (hlabels : Meets (sysStep P) (ClientCall StepNode.Pure) (Sys.init P) labels)
    (hrun : run (sysStep P) (Sys.init P) labels = some s) :
    (∃ t, run (sysStep (P.withFilterCache false)) (Sys.init (P.withFilterCache false)) labels =
        some t ∧ observed t.log = observed s.log ∧ t.fault = s.fault) ↔
      Meets (sysStep P) CacheDecidesAlike (Sys.init P) labels := by
  have hinit : CacheInvariant P StepNode.Pure MadeFor (Sys.init P : Sys Ω) :=
    cacheInvariant_init P _ _
  have hblind : (Sys.init P : Sys Ω).blind = (Sys.init (P.withFilterCache false)).blind := rfl
  have hlift : Meets (sysStep P) (VisitAgrees P) (Sys.init P) labels ↔
      Meets (sysStep P) CacheDecidesAlike (Sys.init P) labels :=
    meets_iff_meets (fun _ _ _ h hlabel hstep => sysStep_madeFor hon h hlabel hstep)
      (fun _ label _ h _ _ => visitAgrees_iff hon h label) hinit hlabels hrun
  rw [← hlift]
  constructor
  · rintro ⟨t, ht, hobs, -⟩
    exact meets_visitAgrees_of_observed hon hinit hblind hlabels hrun ht hobs
  · exact fun hagree => exists_run_withoutCache hagree hrun

/-- A node that matches the measurements with a payload. -/
def payloadChain : StepNodeChain Unit :=
  ⟨⟨.catchAll, { StepNodeCallbacks.none with
    evaluateHandler := some ⟨100, fun _ mes _ _ => (!mes.payload.isEmpty, mes)⟩ }, 0⟩, []⟩

/-- A measurement with a payload and one without, in `ticks` steps, under one filter
word. -/
def withAndWithoutPayload (ticks : ℕ) : List (Label Unit) :=
  let tick : Label Unit := .proc ⟨(), (), 1, 0#32⟩
  .other 1 (.register payloadChain 1 fun _ => ()) ::
    .process 64 ⟨⟨0#32, 0#32, 0#32⟩, [1#8]⟩ false :: List.replicate 9 tick ++
    .process 96 ⟨⟨0#32, 0#32, 0#32⟩, []⟩ false :: List.replicate ticks tick

/-- Both measurements have one filter word, and the node decides them apart: with the
cache its chain is executed for both of them, without the cache for the first one
only. -/
theorem sameFilterWord :
    (∃ s, run (sysStep Platform.oneRecord) (Sys.init Platform.oneRecord)
        (withAndWithoutPayload 9) = some s ∧
      s.proc.isNone = true ∧ s.log.count (.execute 0) = 2) ∧
    ∃ t, run (sysStep (Platform.oneRecord.withFilterCache false))
        (Sys.init (Platform.oneRecord.withFilterCache false)) (withAndWithoutPayload 5) = some t ∧
      t.proc.isNone = true ∧ t.log.count (.execute 0) = 1 :=
  ⟨⟨_, rfl, rfl, by decide⟩, ⟨_, rfl, rfl, by decide⟩⟩

/-- Two measurements with a payload under one filter word, each dispatched to its end. -/
def payloadTwice : List (Label Unit) :=
  let tick : Label Unit := .proc ⟨(), (), 1, 0#32⟩
  .other 1 (.register payloadChain 1 fun _ => ()) ::
    .process 64 ⟨⟨0#32, 0#32, 0#32⟩, [1#8]⟩ false :: List.replicate 9 tick ++
    .process 96 ⟨⟨0#32, 0#32, 0#32⟩, [2#8]⟩ false :: List.replicate 9 tick

/-- **A hit that decides alike**: the second measurement is found in the cache, and the node
would have accepted it as well.  Without the cache the same is observed, so every lookup of the
run has met `CacheDecidesAlike`. -/
theorem filterCache_transparent_iff_hit :
    ∃ s, run (sysStep Platform.oneRecord) (Sys.init Platform.oneRecord) payloadTwice = some s ∧
      s.pm.cache.stats.hits = 1 ∧ s.log.count (.execute 0) = 2 ∧
        Meets (sysStep Platform.oneRecord) CacheDecidesAlike (Sys.init Platform.oneRecord)
          payloadTwice := by
  obtain ⟨s, t, hrun, hhits, hexecuted, hwithout, hobserved, hfault⟩ : ∃ s t,
      run (sysStep Platform.oneRecord) (Sys.init Platform.oneRecord) payloadTwice = some s ∧
        s.pm.cache.stats.hits = 1 ∧ s.log.count (.execute 0) = 2 ∧
        run (sysStep (Platform.oneRecord.withFilterCache false))
          (Sys.init (Platform.oneRecord.withFilterCache false)) payloadTwice = some t ∧
        observed t.log = observed s.log ∧ t.fault = s.fault :=
    ⟨_, _, rfl, rfl, by decide, rfl, by decide, rfl⟩
  have hpure : payloadChain.head.Pure := by
    constructor
    · rintro f ⟨⟩
      exact fun _ _ _ _ _ => rfl
    · rintro g ⟨⟩
  have hlabels : Meets (sysStep Platform.oneRecord) (ClientCall StepNode.Pure)
      (Sys.init Platform.oneRecord) payloadTwice :=
    meets_of_forall_mem (by simpa [payloadTwice, ClientCall] using fun _ => hpure)
  exact ⟨s, hrun, hhits, hexecuted,
    (filterCache_transparent_iff rfl hlabels hrun).mp ⟨t, hwithout, hobserved, hfault⟩⟩

end StepPipeline
