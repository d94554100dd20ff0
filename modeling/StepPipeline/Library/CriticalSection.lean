import StepPipeline.Library.LabelledRun

/-!
# Critical sections

One party of a transition system goes through critical sections in many steps, and the others
go on meanwhile with what does not wait for it.  When each section may be taken for one step.

* `Sections` — a system `fine`, in which the party goes through its sections step by step, and a
  system `coarse`, in which a section is one step of its own;
* `Sections.later` — **the condition on the others**: what they do in the middle of a section
  they can do behind its next step as well;
* `Sections.reduce` — every run of `fine` is one of `coarse`, up to a section that is not over
  and what the others have done since it began;
* `Sections.run_iff` — **the sections are atomic**: outside of them the same states are reached
  and the same is seen;
* `Sections.fault_iff` — and the same faults occur.

What the others do in a section is put off until it is over; nothing is said of when the steps
of the section are taken.

## The argument

The others may move in the middle of a section, but only with steps that do not wait for it.  If
each such step can be taken behind the next step of the section with the same effect
(`Sections.later`), then one step of the section can be moved in front of everything the others
have done since it began, and so can all of them, from the first to the last.  What is left is a
run in which the section is taken in one piece and the others move behind it.  This is reduction
with left movers, for one party.

The converse direction is that a section in one piece can be taken step by step when nobody comes
in between.  Faults need a word of their own, as a section that ends in one never gets to its last
step (`Sections.fault_iff`).
-/

namespace LabelledRun

universe u v w

variable {φ : Type u} {σ : Type v} {ℓ : Type w} {α ε : Type*}

/-- **Critical sections** of the party with the labels `own`: from the state `s` of `coarse` the
party can be `Within` one, and what it does there is not seen. -/
structure Sections (fine : φ → ℓ → Option φ) (coarse : σ → ℓ → Option σ) (own : ℓ → Prop)
    (embed : σ → φ) (Inv : σ → Prop) (Inside : φ → Prop) (Within : σ → φ → Prop)
    (fault : φ → Option ε) (seenFine : φ → ℓ → List α) (seen : σ → ℓ → List α) : Prop where
  keeps : ∀ {s l s'}, Inv s → coarse s l = some s' → Inv s'
  /-- Behind a fault there is nothing. -/
  alive : ∀ {x l y}, fine x l = some y → fault x = none
  alive' : ∀ {s l s'}, coarse s l = some s' → fault (embed s) = none
  quiet : ∀ {x l}, own l → seenFine x l = []
  quiet' : ∀ {s l}, own l → seen s l = []
  same : ∀ {s l}, seenFine (embed s) l = seen s l
  inside : ∀ {s x}, Within s x → Inside x
  /-- From outside a section one step is taken, or a section is entered. -/
  enter : ∀ {s l y}, Inv s → fine (embed s) l = some y →
    (∃ s', coarse s l = some s' ∧ y = embed s') ∨ own l ∧ fault y = none ∧ Within s y
  /-- A section goes on, or it is over and was one step… -/
  go : ∀ {s x l y}, Within s x → own l → fine x l = some y → fault y = none →
    Within s y ∨ ∃ l' s', own l' ∧ coarse s l' = some s' ∧ y = embed s'
  /-- …or it ends with the fault that step ends with. -/
  crash : ∀ {s x l y u}, Within s x → own l → fine x l = some y → fault y = some u →
    ∃ l' s', coarse s l' = some s' ∧ fault (embed s') = some u
  /-- The others do not end a section. -/
  stays : ∀ {x l y}, Inside x → ¬own l → fine x l = some y → Inside y
  /-- What the others do can be done later. -/
  later : ∀ {x y z b a}, Inside x → ¬own b → own a → fine x b = some y → fine y a = some z →
    fault z = none → ∃ y', fine x a = some y' ∧ fine y' b = some z ∧ seenFine y' b = seenFine x b
  /-- A fault does not come from what the others have done in a section… -/
  sooner : ∀ {x y z b a u}, Inside x → ¬own b → fine x b = some y → fine y a = some z →
    fault z = some u → ∃ z', fine x a = some z' ∧ fault z' = some u
  /-- …and a fault of the others does not come from the section. -/
  foreign : ∀ {s x b y u}, Within s x → ¬own b → fine x b = some y → fault y = some u →
    ∃ s', coarse s b = some s' ∧ fault (embed s') = some u
  /-- One step can be taken step by step. -/
  spread : ∀ {s l s'}, Inv s → coarse s l = some s' → fault (embed s') = none →
    ∃ ls, run fine (embed s) ls = some (embed s') ∧ trace fine seenFine (embed s) ls = seen s l
  spread_fault : ∀ {s l s' u}, Inv s → coarse s l = some s' → fault (embed s') = some u →
    ∃ ls x, run fine (embed s) ls = some x ∧ fault x = some u

namespace Sections

variable {fine : φ → ℓ → Option φ} {coarse : σ → ℓ → Option σ} {own : ℓ → Prop} {embed : σ → φ}
  {Inv : σ → Prop} {Inside : φ → Prop} {Within : σ → φ → Prop} {fault : φ → Option ε}
  {seenFine : φ → ℓ → List α} {seen : σ → ℓ → List α}
  (h : Sections fine coarse own embed Inv Inside Within fault seenFine seen)

include h

/-- A run begins without a fault if it ends without one. -/
theorem alive_of_run {x y : φ} {ls : List ℓ} (hrun : run fine x ls = some y)
    (hy : fault y = none) : fault x = none := by
  cases ls with
  | nil =>
      cases hrun
      exact hy
  | cons l ls =>
      obtain ⟨z, hz, -⟩ := (run_cons_eq_some _).mp hrun
      exact h.alive hz

/-- The others do not end a section, whatever they do. -/
theorem stays_run {ls : List ℓ} (hforeign : ∀ l ∈ ls, ¬own l) :
    ∀ {x y : φ}, Inside x → run fine x ls = some y → Inside y := by
  induction ls with
  | nil =>
      intro x y hx hrun
      cases hrun
      exact hx
  | cons b ls ih =>
      intro x y hx hrun
      obtain ⟨hb, hforeign⟩ := List.forall_mem_cons.mp hforeign
      obtain ⟨x', hx', hrun'⟩ := (run_cons_eq_some _).mp hrun
      exact ih hforeign (h.stays hx hb hx') hrun'

/-- **A step of a section goes before** everything the others have done in it. -/
theorem push {ls : List ℓ} (hforeign : ∀ l ∈ ls, ¬own l) {a : ℓ} (ha : own a) :
    ∀ {x y z : φ}, Inside x → run fine x ls = some y → fine y a = some z → fault z = none →
      ∃ x', fine x a = some x' ∧ run fine x' ls = some z ∧
        trace fine seenFine x' ls = trace fine seenFine x ls := by
  induction ls with
  | nil =>
      intro x y z _ hrun hstep _
      cases hrun
      exact ⟨z, hstep, rfl, rfl⟩
  | cons b ls ih =>
      intro x y z hx hrun hstep hz
      obtain ⟨hb, hforeign⟩ := List.forall_mem_cons.mp hforeign
      obtain ⟨x₁, hx₁, hrun₁⟩ := (run_cons_eq_some _).mp hrun
      obtain ⟨x₂, hx₂, hrun₂, htrace⟩ := ih hforeign (h.stays hx hb hx₁) hrun₁ hstep hz
      obtain ⟨x', hx', hb', hseen⟩ := h.later hx hb ha hx₁ hx₂ (h.alive_of_run hrun₂ hz)
      refine ⟨x', hx', (run_cons_eq_some _).mpr ⟨x₂, hb', hrun₂⟩, ?_⟩
      rw [trace_cons hb', trace_cons hx₁, hseen, htrace]

/-- Outside a section the others do the same in both. -/
theorem run_foreign {ls : List ℓ} (hforeign : ∀ l ∈ ls, ¬own l) :
    ∀ {s : σ} {x : φ}, Inv s → run fine (embed s) ls = some x →
      ∃ t, run coarse s ls = some t ∧ x = embed t ∧
        trace fine seenFine (embed s) ls = trace coarse seen s ls := by
  induction ls with
  | nil =>
      intro s x _ hrun
      cases hrun
      exact ⟨s, rfl, rfl, rfl⟩
  | cons b ls ih =>
      intro s x hs hrun
      obtain ⟨hb, hforeign⟩ := List.forall_mem_cons.mp hforeign
      obtain ⟨y, hy, hrun'⟩ := (run_cons_eq_some _).mp hrun
      obtain ⟨s', hs', rfl⟩ | ⟨hown, -, -⟩ := h.enter hs hy
      · obtain ⟨t, ht, hx, htrace⟩ := ih hforeign (h.keeps hs hs') hrun'
        refine ⟨t, (run_cons_eq_some _).mpr ⟨s', hs', ht⟩, hx, ?_⟩
        rw [trace_cons hy, trace_cons hs', h.same, htrace]
      · exact absurd hown hb

/-- **What has happened so far**: a run of `coarse`, and behind it possibly a section that is not
over, with what the others have done since it began. -/
def Reduced (_ : Sections fine coarse own embed Inv Inside Within fault seenFine seen) (s : σ)
    (x : φ) (tr : List α) : Prop :=
  ∃ ls t, run coarse s ls = some t ∧
    (x = embed t ∧ tr = trace coarse seen s ls ∨
      ∃ y pend, Within t y ∧ (∀ l ∈ pend, ¬own l) ∧ run fine y pend = some x ∧
        tr = trace coarse seen s ls ++ trace fine seenFine y pend)

/-- One more step. -/
theorem reduced_step {s : σ} {x y : φ} {tr : List α} {l : ℓ} (hs : Inv s)
    (hx : h.Reduced s x tr) (hstep : fine x l = some y) (hy : fault y = none) :
    h.Reduced s y (tr ++ seenFine x l) := by
  obtain ⟨ls, t, hrun, hend⟩ := hx
  have ht : Inv t := run_preserves (fun _ _ _ => h.keeps) hs hrun
  obtain ⟨rfl, rfl⟩ | ⟨y₀, pend, hwithin, hforeign, hpend, rfl⟩ := hend
  · obtain ⟨t', ht', rfl⟩ | ⟨hown, -, hwithin⟩ := h.enter ht hstep
    · have hrun' : run coarse s (ls ++ [l]) = some t' :=
        run_append_eq_some _ |>.mpr ⟨t, hrun, (run_cons_eq_some _).mpr ⟨t', ht', rfl⟩⟩
      refine ⟨ls ++ [l], t', hrun', Or.inl ⟨rfl, ?_⟩⟩
      rw [trace_append _ hrun, trace_cons ht', h.same, trace, List.append_nil]
    · refine ⟨ls, t, hrun, Or.inr ⟨y, [], hwithin, by simp, rfl, ?_⟩⟩
      rw [h.quiet hown, trace]
  · by_cases hown : own l
    · obtain ⟨y', hy', hpend', htrace⟩ :=
        h.push hforeign hown (h.inside hwithin) hpend hstep hy
      rw [h.quiet hown, List.append_nil, ← htrace]
      obtain hwithin' | ⟨l', t', hown', ht', rfl⟩ :=
        h.go hwithin hown hy' (h.alive_of_run hpend' hy)
      · exact ⟨ls, t, hrun, Or.inr ⟨y', pend, hwithin', hforeign, hpend', rfl⟩⟩
      · -- the section is over, and what has been put off is done
        obtain ⟨t'', ht'', rfl, hsame⟩ := h.run_foreign hforeign (h.keeps ht ht') hpend'
        have hrun' : run coarse s (ls ++ l' :: pend) = some t'' :=
          run_append_eq_some _ |>.mpr ⟨t, hrun, (run_cons_eq_some _).mpr ⟨t', ht', ht''⟩⟩
        refine ⟨ls ++ l' :: pend, t'', hrun', Or.inl ⟨rfl, ?_⟩⟩
        rw [trace_append _ hrun, trace_cons ht', h.quiet' hown', hsame, List.nil_append]
    · refine ⟨ls, t, hrun, Or.inr ⟨y₀, pend ++ [l], hwithin, ?_, ?_, ?_⟩⟩
      · intro b hb
        rcases List.mem_append.mp hb with hb | hb
        · exact hforeign b hb
        · rwa [List.mem_singleton.mp hb]
      · exact run_append_eq_some _ |>.mpr ⟨x, hpend, (run_cons_eq_some _).mpr ⟨y, hstep, rfl⟩⟩
      · rw [trace_append _ hpend, trace_cons hstep, trace, List.append_nil, List.append_assoc]

/-- **The reduction** of a run without a fault. -/
theorem reduce {s : σ} {x : φ} {ls : List ℓ} (hs : Inv s)
    (hrun : run fine (embed s) ls = some x) (hx : fault x = none) :
    h.Reduced s x (trace fine seenFine (embed s) ls) := by
  have hstep : ∀ x l y tr, (fault x = none → h.Reduced s x tr) → True → fine x l = some y →
      fault y = none → h.Reduced s y (tr ++ seenFine x l) :=
    fun x l y tr hx _ hstep hy => h.reduced_step hs (hx (h.alive hstep)) hstep hy
  exact run_trace_invariant hstep (fun _ => ⟨[], s, rfl, Or.inl ⟨rfl, rfl⟩⟩) meets_true hrun hx

/-- Every run of `coarse` can be taken step by step. -/
theorem run_spread {ls : List ℓ} : ∀ {s t : σ}, Inv s → run coarse s ls = some t →
    fault (embed t) = none → ∃ ls', run fine (embed s) ls' = some (embed t) ∧
      trace fine seenFine (embed s) ls' = trace coarse seen s ls := by
  induction ls with
  | nil =>
      intro s t _ hrun _
      cases hrun
      exact ⟨[], rfl, rfl⟩
  | cons l ls ih =>
      intro s t hs hrun ht
      obtain ⟨s', hs', hrun'⟩ := (run_cons_eq_some _).mp hrun
      obtain ⟨post, hpost, htrace'⟩ := ih (h.keeps hs hs') hrun' ht
      obtain ⟨pre, hpre, htrace⟩ := h.spread hs hs' (h.alive_of_run hpost ht)
      refine ⟨pre ++ post, run_append_eq_some _ |>.mpr ⟨_, hpre, hpost⟩, ?_⟩
      rw [trace_append _ hpre, trace_cons hs', htrace, htrace']

/-- **The sections are atomic.**  Outside of them and without a fault the same states are reached,
and the same is seen on the way. -/
theorem run_iff {s : σ} {x : φ} {tr : List α} (hs : Inv s) (hout : ¬Inside x)
    (hx : fault x = none) :
    (∃ ls, run fine (embed s) ls = some x ∧ trace fine seenFine (embed s) ls = tr) ↔
      ∃ t ls, x = embed t ∧ run coarse s ls = some t ∧ trace coarse seen s ls = tr := by
  constructor
  · rintro ⟨ls, hrun, rfl⟩
    obtain ⟨ls', t, hrun', ⟨rfl, htrace⟩ | ⟨y, pend, hwithin, hforeign, hpend, -⟩⟩ :=
      h.reduce hs hrun hx
    · exact ⟨t, ls', rfl, hrun', htrace.symm⟩
    · exact absurd (h.stays_run hforeign (h.inside hwithin) hpend) hout
  · rintro ⟨t, ls, rfl, hrun, rfl⟩
    exact h.run_spread hs hrun hx

/-- A fault behind what the others have done in a section is one without it. -/
theorem fault_sooner {ls : List ℓ} (hforeign : ∀ l ∈ ls, ¬own l) {a : ℓ} {u : ε} :
    ∀ {x y z : φ}, Inside x → run fine x ls = some y → fine y a = some z → fault z = some u →
      ∃ z', fine x a = some z' ∧ fault z' = some u := by
  induction ls with
  | nil =>
      intro x y z _ hrun hstep hz
      cases hrun
      exact ⟨z, hstep, hz⟩
  | cons b ls ih =>
      intro x y z hx hrun hstep hz
      obtain ⟨hb, hforeign⟩ := List.forall_mem_cons.mp hforeign
      obtain ⟨x₁, hx₁, hrun₁⟩ := (run_cons_eq_some _).mp hrun
      obtain ⟨z₁, hz₁, hfault⟩ := ih hforeign (h.stays hx hb hx₁) hrun₁ hstep hz
      exact h.sooner hx hb hx₁ hz₁ hfault

/-- **The same faults** occur. -/
theorem fault_iff {s : σ} {u : ε} (hs : Inv s) (hnone : fault (embed s) = none) :
    (∃ ls x, run fine (embed s) ls = some x ∧ fault x = some u) ↔
      ∃ ls t, run coarse s ls = some t ∧ fault (embed t) = some u := by
  constructor
  · rintro ⟨ls, x, hrun, hx⟩
    -- the last step is the fault
    rcases List.eq_nil_or_concat ls with rfl | ⟨ls, l, rfl⟩
    · cases hrun
      exact absurd (hnone.symm.trans hx) (by simp)
    · rw [List.concat_eq_append] at hrun
      obtain ⟨y, hrun, hlast⟩ := (run_append_eq_some _).mp hrun
      obtain ⟨x', hstep, hnil⟩ := (run_cons_eq_some _).mp hlast
      cases hnil
      obtain ⟨ls', t, hrun', hend⟩ := h.reduce hs hrun (h.alive hstep)
      have hfault : ∃ l' t', coarse t l' = some t' ∧ fault (embed t') = some u := by
        obtain ⟨rfl, -⟩ | ⟨y₀, pend, hwithin, hforeign, hpend, -⟩ := hend
        · have ht : Inv t := run_preserves (fun _ _ _ => h.keeps) hs hrun'
          obtain ⟨t', ht', rfl⟩ | ⟨-, hnone, -⟩ := h.enter ht hstep
          · exact ⟨l, t', ht', hx⟩
          · exact absurd (hnone.symm.trans hx) (by simp)
        · obtain ⟨z, hz, hfault⟩ := h.fault_sooner hforeign (h.inside hwithin) hpend hstep hx
          by_cases hown : own l
          · exact h.crash hwithin hown hz hfault
          · exact ⟨l, h.foreign hwithin hown hz hfault⟩
      obtain ⟨l', t', ht', hfault⟩ := hfault
      exact ⟨ls' ++ [l'], t', run_append_eq_some _ |>.mpr
        ⟨t, hrun', (run_cons_eq_some _).mpr ⟨t', ht', rfl⟩⟩, hfault⟩
  · rintro ⟨ls, t, hrun, ht⟩
    rcases List.eq_nil_or_concat ls with rfl | ⟨ls, l, rfl⟩
    · cases hrun
      exact absurd (hnone.symm.trans ht) (by simp)
    · rw [List.concat_eq_append] at hrun
      obtain ⟨s', hrun, hlast⟩ := (run_append_eq_some _).mp hrun
      obtain ⟨t', hstep, hnil⟩ := (run_cons_eq_some _).mp hlast
      cases hnil
      have hs' : Inv s' := run_preserves (fun _ _ _ => h.keeps) hs hrun
      obtain ⟨pre, hpre, -⟩ := h.run_spread hs hrun (h.alive' hstep)
      obtain ⟨post, x, hpost, hx⟩ := h.spread_fault hs' hstep ht
      exact ⟨pre ++ post, x, run_append_eq_some _ |>.mpr ⟨_, hpre, hpost⟩, hx⟩

end Sections

end LabelledRun
