import StepPipeline.Registry

/-!
# Subscribers

The lists of callback blocks threaded through the records of the registry.  A
block belongs to the registration it was attached to for good: clearing the
registry forgets the lists but neither frees the blocks nor unlinks them.

* `PmState.registrationAt` — the registration a slot holds at present;
* `SubsRepresented` — **what the statics say about the blocks**: which list each
  slot holds, that the lists are disjoint, and that every link of an allocated
  block, forgotten or not, leads to a block of the same registration;
* `apiCall_subsRepresented` — every call keeps that;
* `apiCall_subs_frame` — and leaves the blocks in use as they are.

## Why forgotten blocks are kept track of

`step_pm_clear` wipes the list headers in the records, but a dispatch that is calling the
subscribers of a chain at that moment holds a pointer into a list, and goes on along the links of
the blocks themselves.  What it meets there has nothing to do any more with what the slots say.
So the invariant has two parts.  `holds`, `attached` and `disjoint` are about the lists the slots
hold now; `linked` is about every block ever allocated, and says that links never lead from the
blocks of one registration to those of another, before or after any number of clears.  It is
`linked` that the dispatch needs, and the other clauses are what keeps it true when a block is
appended.

No call frees a block.  The heap may answer with any address not in use, and as nothing is given
back, "not in use" means never handed out.
-/

namespace StepPipeline

open IntrusiveList

variable {Ω : Type}

/-- The registration a slot holds at present.  The epoch makes it a different one after a clear,
though the handle is the same. -/
def PmState.registrationAt (s : PmState Ω) (i : ℕ) : Option Registration :=
  if i < s.handleCounter then some ⟨i, s.epoch⟩ else none

/-- A block `k_heap_alloc` may answer: none, or one that is not in use.  This is all that is
assumed of the heap, and it is a condition on labels: a run in which the heap hands out a block
twice is not a run of the system. -/
def ApiCall.heapOk (s : PmState Ω) : ApiCall Ω → Bool
  | .subscribe _ _ _ (some nc) => decide (nc ∉ s.subAllocated)
  | _ => true

/-- **The statics represent the subscriber lists `subsOf`.** -/
structure SubsRepresented (s : PmState Ω) (subsOf : ℕ → List ℕ) : Prop where
  holds : ∀ i, Holds s.subSnode (s.nodes i).subCallbacks (subsOf i)
  allocated : ∀ i, ∀ b ∈ subsOf i, b ∈ s.subAllocated
  attached : ∀ i, ∀ b ∈ subsOf i, (s.subs b).subscribedTo = s.registrationAt i
  disjoint : ∀ i j b, b ∈ subsOf i → b ∈ subsOf j → i = j
  /-- A link leads to a block of the same registration. -/
  linked : ∀ b ∈ s.subAllocated, ∀ b', s.subSnode b = some b' →
    b' ∈ s.subAllocated ∧ (s.subs b').subscribedTo = (s.subs b).subscribedTo
  /-- A slot that holds no registration is wiped. -/
  wiped : ∀ i, s.handleCounter ≤ i → (s.nodes i).handle = 0 ∧ (s.nodes i).node = none

theorem subsRepresented_init (P : Platform) :
    SubsRepresented (PmState.init P : PmState Ω) fun _ => [] where
  holds _ := holds_empty _
  allocated := by simp
  attached := by simp
  disjoint := by simp
  linked := by simp [PmState.init]
  wiped _ _ := ⟨rfl, rfl⟩

section Calls

variable {P : Platform} {s s' : PmState Ω} {subsOf : ℕ → List ℕ}

theorem registrationAt_of_lt {i : ℕ} (h : i < s.handleCounter) :
    s.registrationAt i = some ⟨i, s.epoch⟩ :=
  if_pos h

theorem registrationAt_of_le {i : ℕ} (h : s.handleCounter ≤ i) :
    s.registrationAt i = none :=
  if_neg (not_lt.mpr h)

/-- Writing an enabled flag does not touch the subscribers. -/
theorem SubsRepresented.setEnabled (h : SubsRepresented s subsOf)
    {nodes : ℕ → StepPmNodeRecord Ω}
    (hnodes : ∀ i, nodes i = { s.nodes i with enabled := (nodes i).enabled }) :
    SubsRepresented { s with nodes := nodes } subsOf := by
  refine ⟨fun i => ?_, h.allocated, h.attached, h.disjoint, h.linked, fun i hi => ?_⟩
  · dsimp only
    rw [hnodes i]
    exact h.holds i
  · dsimp only
    rw [hnodes i]
    exact h.wiped i hi

/-- A new record has no subscribers; those of the others stay. -/
theorem SubsRepresented.add (h : SubsRepresented s subsOf) (node : StepNodeChain Ω)
    (pri : ℕ) :
    SubsRepresented (s.addRecord P node pri) (Function.update subsOf s.handleCounter []) := by
  have hmem : ∀ i b, b ∈ Function.update subsOf s.handleCounter [] i →
      i ≠ s.handleCounter ∧ b ∈ subsOf i := by
    intro i b hb
    by_cases hi : i = s.handleCounter
    · subst hi
      simp at hb
    · exact ⟨hi, by simpa [hi] using hb⟩
  refine ⟨fun i => ?_, fun i b hb => h.allocated i b (hmem i b hb).2, fun i b hb => ?_,
    fun i j b hi hj => h.disjoint i j b (hmem i b hi).2 (hmem j b hj).2, h.linked,
    fun i hi => ?_⟩
  · by_cases hi : i = s.handleCounter
    · subst hi
      simpa [PmState.addRecord, PmState.fillRecord, newRecord, StepPmNodeRecord.zero]
        using holds_empty _
    · simpa [PmState.addRecord, PmState.fillRecord, hi] using h.holds i
  · obtain ⟨hi, hb⟩ := hmem i b hb
    have hreg : (s.addRecord P node pri).registrationAt i = s.registrationAt i := by
      have hlt : i < s.handleCounter + 1 ↔ i < s.handleCounter := by omega
      simp [PmState.registrationAt, PmState.addRecord, PmState.fillRecord, hlt]
    rw [hreg]
    exact h.attached i b hb
  · have hlt : s.handleCounter + 1 ≤ i := hi
    have hne : i ≠ s.handleCounter := by omega
    simpa [PmState.addRecord, PmState.fillRecord, hne] using h.wiped i (by omega)

/-- A clear forgets every list. -/
theorem SubsRepresented.clear (h : SubsRepresented s subsOf)
    (hle : s.handleCounter ≤ P.nodeLimit) :
    SubsRepresented (stepPmClear P s).pm fun i => if i < P.nodeLimit then [] else subsOf i := by
  have hmem : ∀ i b, b ∈ (if i < P.nodeLimit then [] else subsOf i) →
      P.nodeLimit ≤ i ∧ b ∈ subsOf i := by
    intro i b hb
    by_cases hi : i < P.nodeLimit
    · simp [hi] at hb
    · exact ⟨not_lt.mp hi, by simpa [hi] using hb⟩
  refine ⟨fun i => ?_, fun i b hb => h.allocated i b (hmem i b hb).2, fun i b hb => ?_,
    fun i j b hi hj => h.disjoint i j b (hmem i b hi).2 (hmem j b hj).2, h.linked,
    fun i _ => ?_⟩
  · by_cases hi : i < P.nodeLimit
    · simpa [stepPmClear, Outcome.ret, hi, StepPmNodeRecord.zero] using holds_empty _
    · simpa [stepPmClear, Outcome.ret, hi] using h.holds i
  · obtain ⟨hi, hb⟩ := hmem i b hb
    have hnone : (stepPmClear P s).pm.registrationAt i = none :=
      registrationAt_of_le (Nat.zero_le i)
    rw [hnone]
    exact (h.attached i b hb).trans (registrationAt_of_le (hle.trans hi))
  · by_cases hi : i < P.nodeLimit
    · simp [stepPmClear, Outcome.ret, hi, StepPmNodeRecord.zero]
    · simpa [stepPmClear, Outcome.ret, hi] using h.wiped i (hle.trans (not_lt.mp hi))

/-- Linking a block that was not in use in at the end of the list of a slot. -/
theorem SubsRepresented.append (h : SubsRepresented s subsOf) {handle nc : ℕ}
    (cb : Option (FnPtr (NodeChainCompletedCallback Ω))) (userData : ℕ)
    (hfresh : nc ∉ s.subAllocated) {r : Links ℕ × Header ℕ}
    (hplaces : Places s.subSnode r (subsOf handle ++ [nc])) :
    SubsRepresented
      { s with
        subs := Function.update s.subs nc ⟨cb, userData, s.registrationAt handle⟩
        subSnode := r.1
        subAllocated := nc :: s.subAllocated
        nodes := Function.update s.nodes handle
          { s.nodes handle with subCallbacks := r.2 } }
      (Function.update subsOf handle (subsOf handle ++ [nc])) := by
  have hmem : ∀ i b, b ∈ Function.update subsOf handle (subsOf handle ++ [nc]) i →
      b ∈ subsOf i ∨ i = handle ∧ b = nc := by
    intro i b hb
    by_cases hi : i = handle
    · subst hi
      simpa using hb
    · exact Or.inl (by simpa [hi] using hb)
  have hne : ∀ b ∈ s.subAllocated, b ≠ nc := fun b hb heq => hfresh (heq ▸ hb)
  have hattached : ∀ b ∈ subsOf handle ++ [nc],
      (Function.update s.subs nc ⟨cb, userData, s.registrationAt handle⟩ b).subscribedTo =
        s.registrationAt handle := by
    intro b hb
    by_cases hbn : b = nc
    · subst hbn
      simp
    · have hb : b ∈ subsOf handle := by simpa [hbn] using hb
      simpa [hbn] using h.attached handle b hb
  refine ⟨fun i => ?holds, ?allocated, ?attached, ?disjoint, ?linked, fun i hi => ?wiped⟩
  case holds =>
    by_cases hi : i = handle
    · subst hi
      simpa using hplaces.holds
    · -- the lists of two slots have no block in common, so this one is not touched
      simp only [Function.update_of_ne hi]
      refine (h.holds i).congr fun b hb => hplaces.frame b fun hmem => ?_
      rcases List.mem_append.mp hmem with hb' | hb'
      · exact hi (h.disjoint i handle b hb hb')
      · exact hne b (h.allocated i b hb) (List.mem_singleton.mp hb')
  case allocated =>
    intro i b hb
    rcases hmem i b hb with hb | ⟨-, rfl⟩
    · exact List.mem_cons_of_mem nc (h.allocated i b hb)
    · exact List.mem_cons_self
  case attached =>
    intro i b hb
    rcases hmem i b hb with hb | ⟨rfl, rfl⟩
    · simp only [Function.update_of_ne (hne b (h.allocated i b hb))]
      exact h.attached i b hb
    · simp [PmState.registrationAt]
  case disjoint =>
    intro i j b hi hj
    rcases hmem i b hi with hbi | ⟨hih, hbn⟩
    · rcases hmem j b hj with hbj | ⟨-, hbn⟩
      · exact h.disjoint i j b hbi hbj
      · exact absurd hbn (hne b (h.allocated i b hbi))
    · rcases hmem j b hj with hbj | ⟨hjh, -⟩
      · exact absurd hbn (hne b (h.allocated j b hbj))
      · exact hih.trans hjh.symm
  case linked =>
    intro b hb b' (hlink : r.1 b = some b')
    by_cases hlist : b ∈ subsOf handle ++ [nc]
    · -- a link inside the list stays inside it, so both ends belong to `handle`
      have hnext : b' ∈ subsOf handle ++ [nc] := hplaces.holds.mem_of_next hlist hlink
      refine ⟨?_, (hattached b' hnext).trans (hattached b hlist).symm⟩
      rcases List.mem_append.mp hnext with hb' | hb'
      · exact List.mem_cons_of_mem nc (h.allocated handle b' hb')
      · exact (List.mem_singleton.mp hb') ▸ List.mem_cons_self
    · -- any other link is an old one, perhaps of a list a clear has forgotten
      have hbn : b ≠ nc := fun heq => hlist (by simp [heq])
      have hb : b ∈ s.subAllocated := (List.mem_cons.mp hb).resolve_left hbn
      rw [hplaces.frame b hlist] at hlink
      obtain ⟨hb', hsame⟩ := h.linked b hb b' hlink
      refine ⟨List.mem_cons_of_mem nc hb', ?_⟩
      simpa [hbn, hne b' hb'] using hsame
  case wiped =>
    by_cases hih : i = handle
    · subst hih
      simpa using h.wiped i hi
    · simpa [hih] using h.wiped i hi

/-- **What a subscription does**: it is refused, gets no block or names a slot behind the
array, and nothing changes; or it gets a block, which is linked in at the end. -/
theorem subscribe_cases (P : Platform) (s : PmState Ω) (handle : ℕ)
    (cb : Option (FnPtr (NodeChainCompletedCallback Ω))) (userData : ℕ) (block : Option ℕ) :
    ((s.handleCounter < handle ∨ block = none ∨ P.nodeLimit ≤ handle) ∧
      ∃ rc fault, apiCall P s (.subscribe handle cb userData block) =
        ⟨s, rc, none, [], fault⟩ ∧ (rc ≠ 0 ↔ fault = none)) ∨
    ∃ nc, block = some nc ∧ handle ≤ s.handleCounter ∧ handle < P.nodeLimit ∧
      apiCall P s (.subscribe handle cb userData block) =
        Outcome.ret
          { s with
            subs := Function.update s.subs nc ⟨cb, userData, s.registrationAt handle⟩
            subSnode := (P.slist.append s.subSnode (s.nodes handle).subCallbacks nc).1
            subAllocated := nc :: s.subAllocated
            nodes := Function.update s.nodes handle
              { s.nodes handle with
                subCallbacks :=
                  (P.slist.append s.subSnode (s.nodes handle).subCallbacks nc).2 } }
          0 := by
  simp only [apiCall, stepPmSubscribeToNode]
  by_cases hgt : s.handleCounter < handle
  · rw [if_pos hgt]
    exact Or.inl ⟨Or.inl hgt, negEinval, none, rfl, by decide⟩
  · rw [if_neg hgt]
    cases block with
    | none => exact Or.inl ⟨Or.inr (Or.inl rfl), negEnomem, none, rfl, by decide⟩
    | some nc =>
        by_cases hout : P.nodeLimit ≤ handle
        · simp only [if_pos hout]
          exact Or.inl ⟨Or.inr (Or.inr hout), 0, some .outOfBounds, rfl, by decide⟩
        · simp only [if_neg hout]
          exact Or.inr ⟨nc, rfl, not_lt.mp hgt, not_le.mp hout, rfl⟩

/-- **The step lemma of the subscribers.** The lists are existentially quantified, as what they
are after a call depends on it; that the blocks in them are attached to the right registration
does not. -/
theorem apiCall_subsRepresented (h : SubsRepresented s subsOf)
    (hle : s.handleCounter ≤ P.nodeLimit) {c : ApiCall Ω} (hheap : c.heapOk s = true) :
    ∃ subsOf', SubsRepresented (apiCall P s c).pm subsOf' := by
  have hmove := apiCall_move hle c
  generalize (apiCall P s c).pm = s' at hmove
  cases hmove with
  | full _ _ _ _ => exact ⟨_, h⟩
  | add node pri _ _ => exact ⟨_, h.add node pri⟩
  | clear => exact ⟨_, h.clear hle⟩
  | setEnabled _ _ _ hnodes => exact ⟨_, h.setEnabled fun i => (hnodes i).1⟩
  | refused _ _ _ _ => exact ⟨_, h⟩
  | subscribe handle cb userData nc =>
      have hfresh : nc ∉ s.subAllocated := by simpa [ApiCall.heapOk] using hheap
      have hnew : nc ∉ subsOf handle := fun hmem => hfresh (h.allocated handle nc hmem)
      exact ⟨_, h.append cb userData hfresh (P.slist.append_places (h.holds handle) hnew)⟩

/-- **Blocks in use are left alone**: a call neither frees nor rewrites them. -/
theorem apiCall_subs_frame (hle : s.handleCounter ≤ P.nodeLimit) {c : ApiCall Ω}
    (hheap : c.heapOk s = true) {b : ℕ} (hb : b ∈ s.subAllocated) :
    b ∈ (apiCall P s c).pm.subAllocated ∧ (apiCall P s c).pm.subs b = s.subs b := by
  have hmove := apiCall_move hle c
  generalize (apiCall P s c).pm = s' at hmove
  cases hmove with
  | subscribe _ _ _ nc =>
      have hfresh : nc ∉ s.subAllocated := by simpa [ApiCall.heapOk] using hheap
      exact ⟨List.mem_cons_of_mem nc hb,
        Function.update_of_ne (fun heq : b = nc => hfresh (heq ▸ hb)) _ _⟩
  | _ => exact ⟨hb, rfl⟩

end Calls

end StepPipeline
