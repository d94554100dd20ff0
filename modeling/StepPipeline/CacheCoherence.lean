import StepPipeline.CacheSimulation

/-!
# Coherence of the filter cache

What the live records of the cache say about the registry, in every state of every
run: callbacks may rewrite the measurement and with it the key of the cache, other
threads may clear and reuse handles in the middle of a traversal, and records are
evicted at any time.

* `CacheInvariant Good V` — every live record belongs to a registered handle, and
  `V` relates its key, result and measurement to the node registered there;
* `sysStep_cacheInvariant` — every step keeps it, as soon as a fresh evaluation of
  a node that is `Good` satisfies `V`;
* `filterCache_coherent` — for nodes without handlers of their own: each live record
  holds the verdict of the filter chain registered at present, and as long as every
  insertion finds a slot the dispatcher executes what it would execute without a cache;
* `clockAtMaximum` — the one clock reading at which an insertion finds no slot.

## Two parameters

The invariant is proved once, for a class `Good` of nodes and a relation `V` between a node and a
cached result.  The first use takes nodes without handlers of their own, for which `V` says that
the result is what the filter chain gives on the filter word, and concludes that the cache never
shows.  The second one, in `CacheTransparency`, takes nodes with handlers that are functions of
the measurement, for which `V` can only say which measurement the result was computed from, and
that is exactly as much as the condition there needs.

## Why records survive clears and evictions

`step_pm_clear` wipes the table together with the registry, under one lock, so no record of an old
registration is left when its handle is given out again.  Enabling an unregistered slot is
excluded from the clients' calls: such a slot would be visited without being in the abstract
registry.
-/

namespace StepPipeline

open IntrusiveList LabelledRun

variable {Ω : Type}

/-! ### The invariant -/

/-- A live record belongs to a registered handle, and `V` relates it to the node registered there.
The node is that of the registry as it is at present, not as it was when the record was added. -/
def PmState.RecordMeans (V : StepNode Ω → ℕ → BitVec 32 → ℤ → StepMeasurement → Prop)
    (pm : PmState Ω) (filter : BitVec 32) (handle : ℕ) (result : ℤ)
    (madeFor : StepMeasurement) : Prop :=
  handle < pm.handleCounter ∧
    ∃ chain, (pm.nodes handle).node = some chain ∧ V chain.head handle filter result madeFor

/-- **The invariant of the cache.** Every registered chain has a good head, only registered
records are enabled, and every live record of the table means what `V` says. -/
structure CacheInvariant (P : Platform) (Good : StepNode Ω → Prop)
    (V : StepNode Ω → ℕ → BitVec 32 → ℤ → StepMeasurement → Prop) (s : Sys Ω) : Prop where
  registry : ∃ regs l, Represents P s.pm regs l ∧ ∀ reg ∈ regs, Good reg.1.head
  /-- Only registered records are enabled. -/
  enabled : ∀ i, (s.pm.nodes i).enabled = true → i < s.pm.handleCounter
  coherent : Coherent (s.pm.RecordMeans V) s.pm.cache

/-- The calls a client may make: chains with a `Good` head are registered, and enabled flags of
registered handles are written.  `step_pm_enable_node` also lets the handle equal to the counter
through; a client that passes only handles it was given never gets there. -/
def ClientCall (Good : StepNode Ω → Prop) (s : Sys Ω) : Label Ω → Prop
  | .other _ (.register node _ _) => Good node.head
  | .other _ (.enable handle) | .other _ (.disable handle) => handle < s.pm.handleCounter
  | _ => True

section Invariant

variable {P : Platform} {Good : StepNode Ω → Prop}
  {V : StepNode Ω → ℕ → BitVec 32 → ℤ → StepMeasurement → Prop} {s s' : Sys Ω}
  {pm pm' : PmState Ω} {p : Proc Ω} {inp : Inputs Ω}

theorem cacheInvariant_init (P : Platform) (Good : StepNode Ω → Prop)
    (V : StepNode Ω → ℕ → BitVec 32 → ℤ → StepMeasurement → Prop) :
    CacheInvariant P Good V (Sys.init P : Sys Ω) where
  registry := ⟨[], [], represents_init P, by simp⟩
  enabled i h := by cases h
  coherent := coherent_init P

/-- An enabled record is registered, under its index, with a `Good` node. -/
theorem CacheInvariant.visited (h : CacheInvariant P Good V s) {i : ℕ}
    (hon : (s.pm.nodes i).enabled = true) :
    i < s.pm.handleCounter ∧ (s.pm.nodes i).handle = i ∧
      ∃ chain, (s.pm.nodes i).node = some chain ∧ Good chain.head := by
  obtain ⟨regs, l, hrep, hgood⟩ := h.registry
  have hlt := h.enabled i hon
  have hlt' : i < regs.length := hrep.counter_eq ▸ hlt
  obtain ⟨hhandle, hnode, -⟩ := hrep.slot i regs[i] (List.getElem?_eq_getElem hlt')
  exact ⟨hlt, hhandle, regs[i].1, hnode, hgood _ (List.getElem_mem hlt')⟩

theorem RecordMeans.of_sameRegistry (hsame : pm.SameRegistry pm') {filter : BitVec 32}
    {handle : ℕ} {result : ℤ} {madeFor : StepMeasurement}
    (h : pm.RecordMeans V filter handle result madeFor) :
    pm'.RecordMeans V filter handle result madeFor := by
  obtain ⟨hlt, chain, hnode, hV⟩ := h
  exact ⟨hsame.handleCounter ▸ hlt, chain, (hsame.node handle).trans hnode, hV⟩

/-- A lookup keeps the coherence of the cache, whatever it evicts. -/
theorem lookupVerdict_coherent
    (hfresh : ∀ n mes mesAddr handle rc inp v, Good n →
      evaluateNode n mes mesAddr handle rc inp = .ok v →
        V n handle v.mes.header.filterBits v.value v.mes)
    (h : CacheInvariant P Good V s) (hon : (s.pm.nodes p.pnode).enabled = true) {v : Verdict}
    {cache : StepCache}
    (hv : lookupVerdict P s.pm.cache (s.pm.nodes p.pnode) p.mes p.mesAddr p.rc inp =
      .ok (v, cache)) :
    Coherent (s.pm.RecordMeans V) cache := by
  cases lookupVerdict_move hv with
  | hit _ found hfound => exact h.coherent.check
  | fresh _ _ _ => exact h.coherent
  | miss _ hmiss _ hv cache hadd =>
      refine h.coherent.check.add ?_ hadd
      obtain ⟨hlt, hhandle, chain, hnode, hgood⟩ := h.visited hon
      obtain ⟨chain', hnode', heval⟩ := evaluateRecord_eq_ok hv
      obtain rfl : chain = chain' := Option.some.inj (hnode.symm.trans hnode')
      rw [hhandle] at heval ⊢
      exact ⟨hlt, chain, hnode, hfresh _ _ _ _ _ _ _ hgood heval⟩

/-- Registering does not disturb the records there are. -/
theorem RecordMeans.addRecord {filter : BitVec 32} {handle : ℕ} {result : ℤ}
    {madeFor : StepMeasurement} (h : pm.RecordMeans V filter handle result madeFor)
    (node : StepNodeChain Ω) (pri : ℕ) :
    (pm.addRecord P node pri).RecordMeans V filter handle result madeFor := by
  obtain ⟨hlt, chain, hnode, hV⟩ := h
  refine ⟨Nat.lt_succ_of_lt hlt, chain, ?_, hV⟩
  simpa [PmState.addRecord, PmState.fillRecord, hlt.ne] using hnode

/-- No call of a client enables a record that is not registered. -/
theorem apiCall_enabled (hle : pm.handleCounter ≤ P.nodeLimit)
    (h : ∀ i, (pm.nodes i).enabled = true → i < pm.handleCounter) {c : ApiCall Ω}
    (hc : c.HandleBelow pm.handleCounter ∨ ∃ handle cb userData block,
      c = .subscribe handle cb userData block) :
    ∀ i, ((apiCall P pm c).pm.nodes i).enabled = true →
      i < (apiCall P pm c).pm.handleCounter := by
  have hmove := apiCall_move hle c
  generalize (apiCall P pm c).pm = pm' at hmove
  cases hmove with
  | full _ _ _ _ => exact h
  | refused _ _ _ _ => exact h
  | add node pri _ _ =>
      intro i hi
      show i < pm.handleCounter + 1
      by_cases hih : i = pm.handleCounter
      · omega
      · have hold : (pm.nodes i).enabled = true := by
          simpa [PmState.addRecord, PmState.fillRecord, hih] using hi
        exact Nat.lt_succ_of_lt (h i hold)
  | clear =>
      intro i hi
      by_cases hil : i < P.nodeLimit
      · simp [stepPmClear, Outcome.ret, hil, StepPmNodeRecord.zero] at hi
      · have hold := h i (by simpa [stepPmClear, Outcome.ret, hil] using hi)
        omega
  | setEnabled handle nodes hcall hnodes =>
      have hlt : handle < pm.handleCounter := by
        rcases hcall with rfl | rfl
        · exact hc.resolve_right (by simp)
        · exact hc.resolve_right (by simp)
      intro i hi
      by_cases hih : i = handle
      · exact hih ▸ hlt
      · exact h i ((hnodes i).2 hih ▸ hi)
  | subscribe handle cb userData nc =>
      intro i hi
      refine h i ?_
      by_cases hih : i = handle
      · subst hih
        simpa using hi
      · simpa [hih] using hi

/-- The calls of other threads keep the invariant. -/
theorem CacheInvariant.apiCall (hon : P.filterCache = true) (h : CacheInvariant P Good V s)
    {t : Tid} {c : ApiCall Ω} (hclient : ClientCall Good s (.other t c)) :
    CacheInvariant P Good V (s.afterCall (apiCall P s.pm c)) := by
  obtain ⟨regs, l, hrep, hgood⟩ := h.registry
  obtain ⟨l', hrep', -⟩ := apiCall_represents hrep c
  have hgood' : ∀ reg ∈ registerCall P regs c, Good reg.1.head := by
    intro reg hreg
    cases c with
    | register node pri world =>
        rw [registerCall] at hreg
        split at hreg
        · exact hgood reg hreg
        · rcases List.mem_append.mp hreg with hreg | hreg
          · exact hgood reg hreg
          · rw [List.mem_singleton.mp hreg]
            exact hclient
    | clear => cases hreg
    | _ => exact hgood reg hreg
  have hc : c.HandleBelow s.pm.handleCounter ∨ ∃ handle cb userData block,
      c = .subscribe handle cb userData block := by
    cases c with
    | subscribe handle cb userData block => exact Or.inr ⟨_, _, _, _, rfl⟩
    | register _ _ _ => exact Or.inl trivial
    | clear => exact Or.inl trivial
    | enable handle => exact Or.inl hclient
    | disable handle => exact Or.inl hclient
  refine ⟨⟨_, l', hrep', hgood'⟩, apiCall_enabled hrep.counter_le h.enabled hc, ?_⟩
  have hcoherent := h.coherent
  have hstep := apiCall_registryStep hrep.counter_le c
  simp only [Sys.afterCall]
  generalize (StepPipeline.apiCall P s.pm c).pm = pm' at hstep
  cases hstep with
  | same _ hcounter _ _ _ hcache hrecord _ =>
      rw [hcache]
      refine hcoherent.mono fun filter handle result madeFor hmeans => ?_
      obtain ⟨hlt, chain, hnode, hV⟩ := hmeans
      exact ⟨hcounter ▸ hlt, chain, (hrecord handle).2.1.trans hnode, hV⟩
  | clear =>
      -- the only call that gives handles back also wipes the table
      simp only [stepPmClear, Outcome.ret, hon, if_true]
      exact coherent_clear P
  | add node pri world _ =>
      exact hcoherent.mono fun _ _ _ _ hmeans => RecordMeans.addRecord hmeans node pri

/-- **The step lemma of the cache.** -/
theorem sysStep_cacheInvariant
    (hfresh : ∀ n mes mesAddr handle rc inp v, Good n →
      evaluateNode n mes mesAddr handle rc inp = .ok v →
        V n handle v.mes.header.filterBits v.value v.mes)
    (hon : P.filterCache = true) {label : Label Ω} (h : CacheInvariant P Good V s)
    (hclient : ClientCall Good s label) (hstep : sysStep P s label = some s') :
    CacheInvariant P Good V s' := by
  obtain ⟨regs, l, hrep, hgood⟩ := h.registry
  obtain ⟨-, hmove⟩ := sysStep_move hstep
  cases hmove with
  | process _ _ _ _ => exact ⟨h.registry, h.enabled, h.coherent⟩
  | other t c _ _ _ => exact h.apiCall hon hclient
  | @proc inp p _ hproc hmove =>
      have hsame := hmove.sameRegistry
      refine ⟨⟨regs, l, hrep.of_sameRegistry hsame, hgood⟩, fun i hi => ?_, ?_⟩
      · rw [hsame.handleCounter]
        exact h.enabled i (hsame.enabled i ▸ hi)
      · have hcache : Coherent (s.pm.RecordMeans V) s'.pm.cache := by
          cases hmove with
          | noMatch _ hvisit v cache hv _ => exact lookupVerdict_coherent hfresh h hvisit hv
          | enter _ hvisit v cache chain hv _ _ => exact lookupVerdict_coherent hfresh h hvisit hv
          | relock _ _ _ =>
              rw [PmState.account_cache]
              exact h.coherent
          | _ => exact h.coherent
        exact hcache.mono fun _ _ _ _ hmeans => RecordMeans.of_sameRegistry hsame hmeans

end Invariant

/-! ### Room for insertions -/

/-- The table has a record, and every time in it lies below the start value of the
victim scan. -/
structure CacheRoom (s : Sys Ω) : Prop where
  nonempty : s.pm.cache.recs ≠ []
  times : TimesBounded s.pm.cache

/-- Every reading of `k_uptime_get` lies below the largest `int64_t`. -/
def ClockBelowMaximum : Label Ω → Prop
  | .proc inp => inp.uptime < int64Max
  | _ => True

section Room

variable {P : Platform} {s s' : Sys Ω} {p : Proc Ω} {inp : Inputs Ω}

theorem cacheRoom_of_replicate {n : ℕ} (hpos : 1 ≤ n)
    (hrecs : s.pm.cache.recs = List.replicate n .zero) : CacheRoom s := by
  refine ⟨?_, fun r hr => ?_⟩
  · rw [hrecs, ne_eq, List.replicate_eq_nil_iff]
    omega
  · rw [hrecs] at hr
    rw [(List.mem_replicate.mp hr).2]
    decide

theorem cacheRoom_init (P : Platform) : CacheRoom (Sys.init P : Sys Ω) :=
  cacheRoom_of_replicate P.cacheDepth_pos rfl

theorem recs_ne_nil_of_length {c c' : StepCache} (h : c.recs ≠ [])
    (hlength : c'.recs.length = c.recs.length) : c'.recs ≠ [] := by
  rw [← List.length_pos_iff] at h ⊢
  omega

theorem lookupVerdict_room (h : CacheRoom s) (hup : inp.uptime < int64Max) {v : Verdict}
    {cache : StepCache}
    (hv : lookupVerdict P s.pm.cache (s.pm.nodes p.pnode) p.mes p.mesAddr p.rc inp =
      .ok (v, cache)) :
    cache.recs ≠ [] ∧ TimesBounded cache := by
  have hcheck : ∀ filter handle,
      (stepCacheCheck s.pm.cache filter handle inp.uptime).2.2.recs ≠ [] :=
    fun _ _ => recs_ne_nil_of_length h.nonempty stepCacheCheck_length
  cases lookupVerdict_move hv with
  | hit _ found _ => exact ⟨hcheck _ _, h.times.check hup⟩
  | fresh _ _ _ => exact ⟨h.nonempty, h.times⟩
  | miss _ _ _ _ cache hadd =>
      exact ⟨recs_ne_nil_of_length (hcheck _ _) (stepCacheAdd_length hadd),
        (h.times.check hup).add hup hadd⟩

theorem apiCall_cacheRoom (hle : s.pm.handleCounter ≤ P.nodeLimit) (h : CacheRoom s)
    (c : ApiCall Ω) : CacheRoom (s.afterCall (apiCall P s.pm c)) := by
  have hstep := apiCall_registryStep hle c
  have hsame : ∀ {o : Outcome Ω}, o.pm.cache = s.pm.cache → CacheRoom (s.afterCall o) := by
    intro o heq
    refine ⟨?_, ?_⟩ <;> rw [Sys.afterCall, heq]
    · exact h.nonempty
    · exact h.times
  cases hstep' : c with
  | clear =>
      cases hon : P.filterCache with
      | false => exact hsame (by simp [apiCall, stepPmClear, Outcome.ret, hon])
      | true =>
          refine cacheRoom_of_replicate P.cacheDepth_pos ?_
          simp [Sys.afterCall, apiCall, stepPmClear, Outcome.ret, hon, stepCacheClear]
  | _ =>
      refine hsame ?_
      rw [← hstep']
      generalize (apiCall P s.pm c).pm = pm' at hstep
      cases hstep with
      | same _ _ _ _ _ hcache _ _ => exact hcache
      | clear => cases hstep'
      | add _ _ _ _ => rfl

/-- As long as the clock stays below its maximum there is room for insertions. -/
theorem sysStep_cacheRoom {label : Label Ω} (hle : s.pm.handleCounter ≤ P.nodeLimit)
    (h : CacheRoom s) (hclock : ClockBelowMaximum label) (hstep : sysStep P s label = some s') :
    CacheRoom s' := by
  obtain ⟨-, hmove⟩ := sysStep_move hstep
  cases hmove with
  | process _ _ _ _ => exact ⟨h.nonempty, h.times⟩
  | other t c _ _ _ => exact apiCall_cacheRoom hle h c
  | proc _ hmove =>
      cases hmove with
      | noMatch _ _ v cache hv _ =>
          obtain ⟨hne, htimes⟩ := lookupVerdict_room h hclock hv
          exact ⟨hne, htimes⟩
      | enter _ _ v cache chain hv _ _ =>
          obtain ⟨hne, htimes⟩ := lookupVerdict_room h hclock hv
          exact ⟨hne, htimes⟩
      | relock _ _ _ =>
          refine ⟨?_, ?_⟩ <;> rw [PmState.account_cache]
          · exact h.nonempty
          · exact h.times
      | _ => exact ⟨h.nonempty, h.times⟩

end Room

/-! ### Nodes that are filtered by their chain alone -/

/-- A node without an `evaluate_handler` and without a `matched_handler`. -/
def StepNode.FilterOnly (n : StepNode Ω) : Prop :=
  n.callbacks.evaluateHandler = none ∧ n.callbacks.matchedHandler = none

/-- `result` is the verdict `step_filt_evaluate` gives for the filter chain of `n` on
every measurement with the filter word `filter`. -/
def FilterVerdict (n : StepNode Ω) (filter : BitVec 32) (result : ℤ) : Prop :=
  ∀ mes : StepMeasurement, mes.header.filterBits = filter →
    ∃ rc, stepFiltEvaluate (some n.filters) (some mes) = .ok (rc, result)

/-- The labels of a run in which nodes without handlers of their own are registered
and the clock stays below its maximum. -/
def FilterOnlyRun (s : Sys Ω) (label : Label Ω) : Prop :=
  ClientCall StepNode.FilterOnly s label ∧ ClockBelowMaximum label

/-- A visit that adds a verdict to the cache finds a slot for it; short of a slot,
`step_cache_add` writes in front of the table. -/
def FindsSlot (s : Sys Ω) : Label Ω → Prop
  | .proc _ => ∀ p, s.proc = some p → p.pc = .visit → (s.pm.nodes p.pnode).enabled = true →
      s.pm.cache.lookup p.mes.header.filterBits (s.pm.nodes p.pnode).handle = none →
        ∃ i, s.pm.cache.insertSlot = some i
  | _ => True

section FilterOnly

variable {P : Platform} {n : StepNode Ω} {mes : StepMeasurement} {mesAddr handle : ℕ}
  {rc : ℤ} {inp : Inputs Ω} {v : Verdict} {s s' : Sys Ω} {p : Proc Ω}

/-- The evaluation of such a node is that of its filter chain. -/
theorem evaluateNode_filterOnly (hn : n.FilterOnly) :
    evaluateNode n mes mesAddr handle rc inp =
      (stepFiltEvaluate (some n.filters) (some mes)).map fun r => ⟨r.2, r.1, mes, []⟩ := by
  unfold evaluateNode evaluateFilter applyMatched
  rw [hn.1, hn.2]
  cases stepFiltEvaluate (some n.filters) (some mes) <;> rfl

theorem evaluateNode_filterVerdict (hn : n.FilterOnly)
    (hv : evaluateNode n mes mesAddr handle rc inp = .ok v) :
    FilterVerdict n v.mes.header.filterBits v.value := by
  rw [evaluateNode_filterOnly hn] at hv
  obtain ⟨⟨rc', value⟩, heval, rfl⟩ := exists_of_map_eq_ok hv
  intro mes' hword
  exact ⟨rc', (stepFiltEvaluate_congr (some n.filters) hword).trans heval⟩

/-- **A hit gives what an evaluation would**, and a miss finds a slot. -/
theorem lookupAgrees_of_coherent (hon : P.filterCache = true)
    (h : CacheInvariant P StepNode.FilterOnly (fun n _ f r _ => FilterVerdict n f r) s)
    (hvisit : (s.pm.nodes p.pnode).enabled = true)
    (hslot : s.pm.cache.lookup p.mes.header.filterBits (s.pm.nodes p.pnode).handle = none →
      ∃ i, s.pm.cache.insertSlot = some i) :
    LookupAgrees P s.pm p inp := by
  obtain ⟨hlt, hhandle, chain, hnode, hgood⟩ := h.visited hvisit
  cases hfind : s.pm.cache.lookup p.mes.header.filterBits (s.pm.nodes p.pnode).handle with
  | none =>
      rw [lookupAgrees_miss_iff hon hfind]
      exact fun _ => hslot hfind
  | some found =>
      obtain ⟨-, chain', hnode', hverdict⟩ := h.coherent.of_lookup hfind
      rw [hhandle, hnode] at hnode'
      obtain rfl := Option.some.inj hnode'
      obtain ⟨rc, heval⟩ := hverdict p.mes rfl
      refine (lookupAgrees_hit_iff hon hfind).mpr ⟨⟨found.result, rc, p.mes, []⟩, ?_, rfl, rfl, rfl⟩
      rw [evaluateRecord, hnode]
      refine (evaluateNode_filterOnly hgood).trans ?_
      rw [heval]
      rfl

/-- What holds in a run of nodes that are filtered by their chain alone. -/
structure FilterOnlyState (P : Platform) (s : Sys Ω) : Prop where
  cache : CacheInvariant P StepNode.FilterOnly (fun n _ f r _ => FilterVerdict n f r) s
  room : CacheRoom s

theorem sysStep_filterOnlyCache (hon : P.filterCache = true) {label : Label Ω}
    (h : CacheInvariant P StepNode.FilterOnly (fun n _ f r _ => FilterVerdict n f r) s)
    (hlabel : ClientCall StepNode.FilterOnly s label) (hstep : sysStep P s label = some s') :
    CacheInvariant P StepNode.FilterOnly (fun n _ f r _ => FilterVerdict n f r) s' := by
  refine sysStep_cacheInvariant ?_ hon h hlabel hstep
  exact fun n mes mesAddr handle rc inp v hn hv => evaluateNode_filterVerdict hn hv

theorem sysStep_filterOnlyState (hon : P.filterCache = true) {label : Label Ω}
    (h : FilterOnlyState P s) (hlabel : FilterOnlyRun s label)
    (hstep : sysStep P s label = some s') : FilterOnlyState P s' := by
  obtain ⟨regs, l, hrep, -⟩ := h.cache.registry
  exact ⟨sysStep_filterOnlyCache hon h.cache hlabel.1 hstep,
    sysStep_cacheRoom hrep.counter_le h.room hlabel.2 hstep⟩

theorem visitAgrees_of_findsSlot (hon : P.filterCache = true)
    (h : CacheInvariant P StepNode.FilterOnly (fun n _ f r _ => FilterVerdict n f r) s)
    {label : Label Ω} (hslot : FindsSlot s label) : VisitAgrees P s label := by
  cases label with
  | proc inp =>
      intro p hproc hpc hvisit
      exact lookupAgrees_of_coherent hon h hvisit (hslot p hproc hpc hvisit)
  | _ => trivial

theorem findsSlot_of_cacheRoom (h : CacheRoom s) (label : Label Ω) : FindsSlot s label := by
  cases label with
  | proc inp => exact fun _ _ _ _ _ => insertSlot_isSome h.nonempty h.times
  | _ => trivial

/-- **Coherence and transparency of the filter cache** for nodes without handlers of
their own.  Whatever the clock says, each live record has a registered handle and the
verdict of its present filter chain; as long as every insertion finds a slot, the
dispatcher without a cache makes the same run and is observed to do the same; and every
insertion does if the clock stays below the largest `int64_t`. -/
theorem filterCache_coherent (hon : P.filterCache = true) {labels : List (Label Ω)}
    (hlabels : Meets (sysStep P) (ClientCall StepNode.FilterOnly) (Sys.init P) labels)
    (hrun : run (sysStep P) (Sys.init P) labels = some s) :
    (∀ r ∈ s.pm.cache.recs, r.lastUsed ≠ 0 →
      r.handle < s.pm.handleCounter ∧ ∃ chain, (s.pm.nodes r.handle).node = some chain ∧
        FilterVerdict chain.head r.input r.result) ∧
      (Meets (sysStep P) FindsSlot (Sys.init P) labels →
        ∃ t, run (sysStep (P.withFilterCache false)) (Sys.init (P.withFilterCache false))
            labels = some t ∧ observed t.log = observed s.log ∧ t.fault = s.fault) ∧
      ((∀ label ∈ labels, ClockBelowMaximum label) →
        Meets (sysStep P) FindsSlot (Sys.init P) labels) := by
  have hinit : FilterOnlyState P (Sys.init P : Sys Ω) :=
    ⟨cacheInvariant_init P _ _, cacheRoom_init P⟩
  refine ⟨?_, fun hslots => ?_, fun hclock => ?_⟩
  · have hend := run_invariant (fun _ _ _ h hlabel hstep =>
      sysStep_filterOnlyCache hon h hlabel hstep) hinit.cache hlabels hrun
    exact hend.coherent
  · have hagree : Meets (sysStep P) (VisitAgrees P) (Sys.init P) labels :=
      meets_of_invariant
        (fun _ _ _ h hlabel hstep => sysStep_filterOnlyCache hon h hlabel.1 hstep)
        (fun _ _ h hlabel => visitAgrees_of_findsSlot hon h hlabel.2)
        hinit.cache (hlabels.and hslots)
    exact exists_run_withoutCache hagree hrun
  · have hboth : Meets (sysStep P) FilterOnlyRun (Sys.init P) labels :=
      hlabels.and (meets_of_forall_mem fun label hmem _ => hclock label hmem)
    exact meets_of_invariant
      (fun _ _ _ h hlabel hstep => sysStep_filterOnlyState hon h hlabel hstep)
      (fun _ label h _ => findsSlot_of_cacheRoom h.room label) hinit hboth

end FilterOnly

/-- The build of the test suite with a cache of one record. -/
def Platform.oneRecord : Platform :=
  { Platform.tests with
    filterCache := true
    cacheDepth := 1
    cacheDepth_pos := by decide }

/-- Two measurements that differ in their filter words are processed, with every
reading of the clock equal to `uptime`. -/
def twoMeasurements (uptime : ℤ) : List (Label Unit) :=
  let tick : Label Unit := .proc ⟨(), (), uptime, 0#32⟩
  .other 1 (.register silentChain 1 fun _ => ()) ::
    .process 64 ⟨⟨0#32, 0#32, 0#32⟩, []⟩ false :: List.replicate 9 tick ++
    .process 64 ⟨⟨1#32, 0#32, 0#32⟩, []⟩ false :: List.replicate 3 tick

/-- With the clock at its maximum the only record is never older than the start
value of the victim scan: the second insertion finds no slot, and the chain that is
executed without a cache is not executed. -/
theorem clockAtMaximum :
    (∃ s, run (sysStep Platform.oneRecord) (Sys.init Platform.oneRecord)
        (twoMeasurements int64Max) = some s ∧
      s.fault = some .outOfBounds ∧ s.log.count (.execute 0) = 1) ∧
    ∃ t, run (sysStep (Platform.oneRecord.withFilterCache false))
        (Sys.init (Platform.oneRecord.withFilterCache false)) (twoMeasurements int64Max) = some t ∧
      t.fault = none ∧ t.log.count (.execute 0) = 2 :=
  ⟨⟨_, rfl, rfl, by decide⟩, ⟨_, rfl, rfl, by decide⟩⟩

/-- The same run one millisecond earlier. -/
theorem filterCache_coherent_two :
    ∃ s, run (sysStep Platform.oneRecord) (Sys.init Platform.oneRecord)
        (twoMeasurements (int64Max - 1)) = some s ∧
      ∃ t, run (sysStep (Platform.oneRecord.withFilterCache false))
          (Sys.init (Platform.oneRecord.withFilterCache false))
          (twoMeasurements (int64Max - 1)) = some t ∧
        observed t.log = observed s.log ∧ t.fault = s.fault := by
  obtain ⟨s, hrun⟩ : ∃ s, run (sysStep Platform.oneRecord) (Sys.init Platform.oneRecord)
      (twoMeasurements (int64Max - 1)) = some s := ⟨_, rfl⟩
  have hlabels : ∀ label ∈ twoMeasurements (int64Max - 1), ∀ s : Sys Unit,
      ClientCall StepNode.FilterOnly s label := by
    simp [twoMeasurements, ClientCall, silentChain, StepNode.FilterOnly, StepNodeCallbacks.none]
  have hclock : ∀ label ∈ twoMeasurements (int64Max - 1), ClockBelowMaximum label := by
    simp [twoMeasurements, ClockBelowMaximum]
  obtain ⟨-, hsame, hslots⟩ := filterCache_coherent rfl (meets_of_forall_mem hlabels) hrun
  exact ⟨s, hrun, hsame (hslots hclock)⟩

end StepPipeline
