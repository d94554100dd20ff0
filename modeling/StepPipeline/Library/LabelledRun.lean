import Mathlib.Data.Option.Basic
import Mathlib.Data.List.Basic
import Mathlib.Order.RelClasses

/-!
# Runs of labelled partial transition functions

A deterministic transition system in which every source of nondeterminism
(which party moves, what an external call returns, what a clock reads) has been
moved into the label: `step : σ → ℓ → Option σ`, where `none` says that the
label is not enabled in the state.

* `run` — execute a list of labels;
* `Meets` — every step taken along a run satisfies a condition on the state it
  starts from and on its label;
* `Always` — a predicate holds in every state a run passes through;
* `run_invariant` — the induction rule: what one step preserves, a run
  preserves; `run_preserves` is the rule without a condition on the steps;
* `meets_iff_meets` and `always_iff_meets` — an equivalence shown of one step
  lifts to whole runs;
* `trace` and `run_trace_invariant` — what an observer of the steps has seen, and
  the run rule for invariants that mention it;
* `withTrace` — the system together with what the observer has seen;
* `exists_run_of_variant_meets`, `exists_run_of_variant` and `exists_run_of_variant_le` — the
  rules for runs that come to an end: with a condition on the steps and an account of the way,
  without, and with a bound on the steps;
* `run_map` — a system that is the image of another one has its runs;
* `run_lockstep` — two systems that answer every label alike look alike
  throughout;
* `run_projected`, `meets_projected` and `trace_projected` — what a part does while
  the whole takes its steps.

## Nondeterminism in the labels

A step function is partial and deterministic: given the state and the label there is at most one
successor.  Whatever is open (who moves, what the surroundings answer) has to be in the label, so
a list of labels is a schedule together with all answers, and a statement over all lists of labels
is one over all interleavings.  The advantage over a step relation is that runs can be computed,
two systems can be run on the same schedule, and conditions can be put on labels.

## Conditions along a run

`Meets` does not ask whether the run goes through: it asks of every step that is taken.  This
makes it monotone in the run (`Meets.before`, `Meets.after`), and lets a condition and the
existence of the run be stated apart.  An equivalence of the form "a property holds throughout
exactly if every step meets a condition" is proved for one step, under an invariant, and lifted by
`always_iff_meets`, `holds_iff_meets` or `meets_iff_meets`, according to whether the property is
one of states that can be lost, one that is never restored, or one of steps.
-/

namespace LabelledRun

universe u v w

variable {σ : Type u} {ℓ : Type v} {τ : Type w}

/-- Execute the labels in order; `none` as soon as one of them is not enabled. -/
def run (step : σ → ℓ → Option σ) : σ → List ℓ → Option σ
  | s, [] => some s
  | s, l :: ls => (step s l).bind fun s' => run step s' ls

section Run

variable (step : σ → ℓ → Option σ)

@[simp] theorem run_nil (s : σ) : run step s [] = some s := rfl

theorem run_cons (s : σ) (l : ℓ) (ls : List ℓ) :
    run step s (l :: ls) = (step s l).bind fun s' => run step s' ls := rfl

theorem run_cons_eq_some {s t : σ} {l : ℓ} {ls : List ℓ} :
    run step s (l :: ls) = some t ↔
      ∃ s', step s l = some s' ∧ run step s' ls = some t := by
  rw [run_cons, Option.bind_eq_some_iff]

/-- A run is executed part by part. -/
theorem run_append_eq_some {s t : σ} {pre post : List ℓ} :
    run step s (pre ++ post) = some t ↔
      ∃ u, run step s pre = some u ∧ run step u post = some t := by
  induction pre generalizing s with
  | nil => simp [run]
  | cons l pre ih =>
      rw [List.cons_append, run_cons_eq_some]
      simp only [ih, run_cons_eq_some]
      constructor
      · rintro ⟨s', hs', u, hpre, hpost⟩
        exact ⟨u, ⟨s', hs', hpre⟩, hpost⟩
      · rintro ⟨u, ⟨s', hs', hpre⟩, hpost⟩
        exact ⟨s', hs', u, hpre, hpost⟩

/-- **A condition on every step of a run**: it may read the state the step is
taken from and the label, never the state the step leads to. -/
def Meets (cond : σ → ℓ → Prop) : σ → List ℓ → Prop
  | _, [] => True
  | s, l :: ls => cond s l ∧ ∀ s', step s l = some s' → Meets cond s' ls

/-- Whether a run meets a condition can be tested by executing it. -/
instance Meets.decidable {cond : σ → ℓ → Prop} [∀ s l, Decidable (cond s l)] :
    ∀ (s : σ) (ls : List ℓ), Decidable (Meets step cond s ls)
  | _, [] => isTrue trivial
  | s, l :: ls =>
      have : Decidable (∀ s', step s l = some s' → Meets step cond s' ls) :=
        match step s l with
        | none => isTrue fun _ hs => nomatch hs
        | some t =>
            have : Decidable (Meets step cond t ls) := Meets.decidable t ls
            decidable_of_iff (Meets step cond t ls)
              ⟨fun ht _ hs => Option.some.inj hs ▸ ht, fun ht => ht t rfl⟩
      inferInstanceAs (Decidable (cond s l ∧ _))

/-- A predicate that holds in every state a run passes through, its first one
included. -/
def Always (P : σ → Prop) : σ → List ℓ → Prop
  | s, [] => P s
  | s, l :: ls => P s ∧ ∀ s', step s l = some s' → Always P s' ls

/-- …and so can a predicate on the states it passes through. -/
instance Always.decidable {P : σ → Prop} [∀ s, Decidable (P s)] :
    ∀ (s : σ) (ls : List ℓ), Decidable (Always step P s ls)
  | s, [] => inferInstanceAs (Decidable (P s))
  | s, l :: ls =>
      have : Decidable (∀ s', step s l = some s' → Always step P s' ls) :=
        match step s l with
        | none => isTrue fun _ hs => nomatch hs
        | some t =>
            have : Decidable (Always step P t ls) := Always.decidable t ls
            decidable_of_iff (Always step P t ls)
              ⟨fun ht _ hs => Option.some.inj hs ▸ ht, fun ht => ht t rfl⟩
      inferInstanceAs (Decidable (P s ∧ _))

variable {step}

theorem Always.head {P : σ → Prop} {s : σ} {ls : List ℓ} (h : Always step P s ls) : P s := by
  cases ls with
  | nil => exact h
  | cons _ _ => exact h.1

theorem Always.last {P : σ → Prop} {ls : List ℓ} :
    ∀ {s t : σ}, Always step P s ls → run step s ls = some t → P t := by
  induction ls with
  | nil =>
      intro s t h hrun
      cases hrun
      exact h
  | cons l ls ih =>
      intro s t h hrun
      obtain ⟨s', hs', hrun'⟩ := (run_cons_eq_some step).mp hrun
      exact ih (h.2 s' hs') hrun'

@[simp] theorem meets_nil (cond : σ → ℓ → Prop) (s : σ) :
    Meets step cond s [] := trivial

/-- Two conditions met are met together. -/
theorem Meets.and {cond cond' : σ → ℓ → Prop} :
    ∀ {ls : List ℓ} {s : σ}, Meets step cond s ls → Meets step cond' s ls →
      Meets step (fun s l => cond s l ∧ cond' s l) s ls := by
  intro ls
  induction ls with
  | nil => intro s _ _; trivial
  | cons l ls ih =>
      rintro s ⟨hhead, htail⟩ ⟨hhead', htail'⟩
      exact ⟨⟨hhead, hhead'⟩, fun s' hs' => ih (htail s' hs') (htail' s' hs')⟩

/-- A condition that reads only the label is met as soon as every label has it. -/
theorem meets_of_forall_mem {cond : σ → ℓ → Prop} :
    ∀ {ls : List ℓ} {s : σ}, (∀ l ∈ ls, ∀ s, cond s l) → Meets step cond s ls := by
  intro ls
  induction ls with
  | nil => intro s _; trivial
  | cons l ls ih =>
      intro s h
      exact ⟨h l List.mem_cons_self s,
        fun s' _ => ih fun m hm => h m (List.mem_cons_of_mem l hm)⟩

/-- **The run rule.**  What every step that meets the condition preserves, every
run whose steps meet it preserves. -/
theorem run_invariant {I : σ → Prop} {cond : σ → ℓ → Prop}
    (hstep : ∀ s l s', I s → cond s l → step s l = some s' → I s') :
    ∀ {ls : List ℓ} {s t : σ},
      I s → Meets step cond s ls → run step s ls = some t → I t := by
  intro ls
  induction ls with
  | nil => intro s t hI _ hrun; cases hrun; exact hI
  | cons l ls ih =>
      intro s t hI hmeets hrun
      obtain ⟨s', hs', hrun'⟩ := (run_cons_eq_some step).mp hrun
      exact ih (hstep s l s' hI hmeets.1 hs') (hmeets.2 s' hs') hrun'

/-- No condition at all is met along every run. -/
theorem meets_true : ∀ {ls : List ℓ} {s : σ}, Meets step (fun _ _ => True) s ls :=
  meets_of_forall_mem fun _ _ _ => trivial

/-- The run rule for an invariant that every step preserves. -/
theorem run_preserves {I : σ → Prop} (hstep : ∀ s l s', I s → step s l = some s' → I s')
    {ls : List ℓ} {s t : σ} (hI : I s) (hrun : run step s ls = some t) : I t :=
  run_invariant (fun s l s' hI _ h => hstep s l s' hI h) hI meets_true hrun

/-- What an invariant says of every single step it says of all steps of a run. -/
theorem meets_of_invariant {I : σ → Prop} {cond q : σ → ℓ → Prop}
    (hinv : ∀ s l s', I s → cond s l → step s l = some s' → I s')
    (hq : ∀ s l, I s → cond s l → q s l) :
    ∀ {ls : List ℓ} {s : σ}, I s → Meets step cond s ls → Meets step q s ls := by
  intro ls
  induction ls with
  | nil => intro s _ _; trivial
  | cons l ls ih =>
      intro s hI hmeets
      exact ⟨hq s l hI hmeets.1,
        fun s' hs' => ih (hinv s l s' hI hmeets.1 hs') (hmeets.2 s' hs')⟩

/-- **An equivalence of conditions**, shown of one step under an invariant, holds along
runs. -/
theorem meets_congr {I : σ → Prop} {cond p q : σ → ℓ → Prop}
    (hinv : ∀ s l s', I s → cond s l → step s l = some s' → I s')
    (hiff : ∀ s l, I s → cond s l → (p s l ↔ q s l)) {ls : List ℓ} {s : σ} (hI : I s)
    (hmeets : Meets step cond s ls) : Meets step p s ls ↔ Meets step q s ls := by
  constructor
  · intro hp
    exact meets_of_invariant (fun s l s' hI h => hinv s l s' hI h.1)
      (fun s l hI h => (hiff s l hI h.1).mp h.2) hI (hmeets.and hp)
  · intro hq
    exact meets_of_invariant (fun s l s' hI h => hinv s l s' hI h.1)
      (fun s l hI h => (hiff s l hI h.1).mpr h.2) hI (hmeets.and hq)

/-- A condition that follows from one that is met. -/
theorem Meets.imp {cond cond' : σ → ℓ → Prop} (himp : ∀ s l, cond s l → cond' s l) :
    ∀ {ls : List ℓ} {s : σ}, Meets step cond s ls → Meets step cond' s ls := by
  intro ls
  induction ls with
  | nil => intro s _; trivial
  | cons l ls ih => exact fun h => ⟨himp _ _ h.1, fun s' hs' => ih (h.2 s' hs')⟩

/-- A condition met along a run is met along its first part. -/
theorem Meets.before {cond : σ → ℓ → Prop} {post : List ℓ} :
    ∀ {pre : List ℓ} {s : σ}, Meets step cond s (pre ++ post) → Meets step cond s pre := by
  intro pre
  induction pre with
  | nil => intro s _; trivial
  | cons m pre ih => exact fun h => ⟨h.1, fun s' hs' => ih (h.2 s' hs')⟩

/-- A condition met along a run is met along what follows any part of it. -/
theorem Meets.after {cond : σ → ℓ → Prop} {post : List ℓ} :
    ∀ {pre : List ℓ} {s t : σ}, Meets step cond s (pre ++ post) →
      run step s pre = some t → Meets step cond t post := by
  intro pre
  induction pre with
  | nil =>
      intro s t h hrun
      cases hrun
      exact h
  | cons m pre ih =>
      intro s t h hrun
      obtain ⟨s', hs', hrun'⟩ := (run_cons_eq_some step).mp hrun
      exact ih (h.2 s' hs') hrun'

/-- A condition met along a run is met at each of its steps. -/
theorem Meets.at_step {cond : σ → ℓ → Prop} {l : ℓ} {pre post : List ℓ} {s t : σ}
    (h : Meets step cond s (pre ++ l :: post)) (hrun : run step s pre = some t) : cond t l :=
  (h.after hrun).1

/-- A condition met along a run and along what follows it. -/
theorem Meets.append {cond : σ → ℓ → Prop} {post : List ℓ} :
    ∀ {pre : List ℓ} {s t : σ}, Meets step cond s pre → run step s pre = some t →
      Meets step cond t post → Meets step cond s (pre ++ post) := by
  intro pre
  induction pre with
  | nil =>
      intro s t _ hrun hpost
      cases hrun
      exact hpost
  | cons m pre ih =>
      intro s t hpre hrun hpost
      refine ⟨hpre.1, fun s' hs' => ?_⟩
      obtain ⟨s'', hs'', hrun'⟩ := (run_cons_eq_some step).mp hrun
      obtain rfl := Option.some.inj (hs'.symm.trans hs'')
      exact ih (hpre.2 s' hs') hrun' hpost

/-- What an observer who sees state and label of every step has noted down.  Steps that are not
taken are not noted. -/
def trace {α : Type*} (step : σ → ℓ → Option σ) (obs : σ → ℓ → List α) :
    σ → List ℓ → List α
  | _, [] => []
  | s, l :: ls =>
      obs s l ++ match step s l with
        | none => []
        | some s' => trace step obs s' ls

theorem trace_cons {α : Type*} {obs : σ → ℓ → List α} {s s' : σ} {l : ℓ}
    (h : step s l = some s') (ls : List ℓ) :
    trace step obs s (l :: ls) = obs s l ++ trace step obs s' ls := by
  rw [trace, h]

/-- What is noted down along a run and along what follows it. -/
theorem trace_append {α : Type*} {obs : σ → ℓ → List α} (post : List ℓ) :
    ∀ {pre : List ℓ} {s t : σ}, run step s pre = some t →
      trace step obs s (pre ++ post) = trace step obs s pre ++ trace step obs t post := by
  intro pre
  induction pre with
  | nil =>
      intro s t hrun
      cases hrun
      rfl
  | cons m pre ih =>
      intro s t hrun
      obtain ⟨s', hs', hrun'⟩ := (run_cons_eq_some step).mp hrun
      rw [List.cons_append, trace_cons hs', trace_cons hs', ih hrun', List.append_assoc]

/-- Looking at what was observed is observing it that way. -/
theorem map_trace {α β : Type*} {obs : σ → ℓ → List α} (f : α → β) :
    ∀ (ls : List ℓ) (s : σ),
      (trace step obs s ls).map f = trace step (fun s l => (obs s l).map f) s ls := by
  intro ls
  induction ls with
  | nil => intro s; rfl
  | cons l ls ih =>
      intro s
      simp only [trace, List.map_append]
      cases step s l with
      | none => rfl
      | some s' => exact congrArg _ (ih s')

/-- Nothing has been seen where nothing is noted down. -/
theorem trace_eq_nil {α : Type*} {obs : σ → ℓ → List α} {ls : List ℓ}
    (h : ∀ l ∈ ls, ∀ s, obs s l = []) : ∀ {s : σ}, trace step obs s ls = [] := by
  induction ls with
  | nil => intro s; rfl
  | cons l ls ih =>
      intro s
      obtain ⟨hl, hls⟩ := List.forall_mem_cons.mp h
      rw [trace, hl, List.nil_append]
      cases step s l with
      | none => rfl
      | some s' => exact ih hls

/-- The run rule with an observer, for a run that goes on from what was seen before. -/
theorem run_trace_invariant_append {α : Type*} {obs : σ → ℓ → List α} {I : σ → List α → Prop}
    {cond : σ → ℓ → Prop}
    (hstep : ∀ s l s' seen, I s seen → cond s l → step s l = some s' →
      I s' (seen ++ obs s l)) :
    ∀ {ls : List ℓ} {s t : σ} {seen : List α}, I s seen → Meets step cond s ls →
      run step s ls = some t → I t (seen ++ trace step obs s ls) := by
  intro ls
  induction ls with
  | nil =>
      intro s t seen hI _ hrun
      cases hrun
      simpa [trace] using hI
  | cons l ls ih =>
      intro s t seen hI hmeets hrun
      obtain ⟨s', hs', hrun'⟩ := (run_cons_eq_some step).mp hrun
      have hrest := ih (hstep s l s' seen hI hmeets.1 hs') (hmeets.2 s' hs') hrun'
      simpa [trace, hs'] using hrest

/-- **The run rule with an observer.**  The invariant relates the state to what
has been observed so far. -/
theorem run_trace_invariant {α : Type*} {obs : σ → ℓ → List α} {I : σ → List α → Prop}
    {cond : σ → ℓ → Prop}
    (hstep : ∀ s l s' seen, I s seen → cond s l → step s l = some s' →
      I s' (seen ++ obs s l))
    {ls : List ℓ} {s t : σ} (hI : I s []) (hmeets : Meets step cond s ls)
    (hrun : run step s ls = some t) : I t (trace step obs s ls) := by
  have hend := run_trace_invariant_append hstep hI hmeets hrun
  rwa [List.nil_append] at hend

/-- The system that carries along what an observer of its steps has seen, for predicates and
conditions that read it.  Its runs are those of the system (`run_withTrace`). -/
def withTrace {α : Type*} (step : σ → ℓ → Option σ) (obs : σ → ℓ → List α) :
    σ × List α → ℓ → Option (σ × List α) :=
  fun x l => (step x.1 l).map fun s' => (s', x.2 ++ obs x.1 l)

theorem withTrace_eq_some {α : Type*} {obs : σ → ℓ → List α} {x y : σ × List α} {l : ℓ} :
    withTrace step obs x l = some y ↔ step x.1 l = some y.1 ∧ y.2 = x.2 ++ obs x.1 l := by
  obtain ⟨t, seen⟩ := y
  rw [withTrace, Option.map_eq_some_iff]
  constructor
  · rintro ⟨s', hs', heq⟩
    cases heq
    exact ⟨hs', rfl⟩
  · rintro ⟨hs', heq⟩
    exact ⟨t, hs', Prod.ext rfl heq.symm⟩

/-- It runs as the system does, and carries along the trace. -/
theorem run_withTrace {α : Type*} {obs : σ → ℓ → List α} :
    ∀ (ls : List ℓ) (s : σ) (seen : List α),
      run (withTrace step obs) (s, seen) ls =
        (run step s ls).map fun t => (t, seen ++ trace step obs s ls) := by
  intro ls
  induction ls with
  | nil => intro s seen; simp [run, trace]
  | cons l ls ih =>
      intro s seen
      rw [run_cons, run_cons, withTrace]
      cases hs' : step s l with
      | none => rfl
      | some s' =>
          rw [trace_cons hs', ← List.append_assoc]
          exact ih s' (seen ++ obs s l)

/-- What an invariant says of every step that is taken it says of all steps of a run. -/
theorem meets_of_run {I : σ → Prop} {cond q : σ → ℓ → Prop}
    (hinv : ∀ s l s', I s → cond s l → step s l = some s' → I s')
    (hq : ∀ s l s', I s → cond s l → step s l = some s' → q s l) :
    ∀ {ls : List ℓ} {s t : σ}, I s → Meets step cond s ls → run step s ls = some t →
      Meets step q s ls := by
  intro ls
  induction ls with
  | nil => intro s t _ _ _; trivial
  | cons l ls ih =>
      intro s t hI hmeets hrun
      obtain ⟨s', hs', hrun'⟩ := (run_cons_eq_some step).mp hrun
      have htail := ih (hinv s l s' hI hmeets.1 hs') (hmeets.2 s' hs') hrun'
      exact ⟨hq s l s' hI hmeets.1 hs', fun u hu => Option.some.inj (hs'.symm.trans hu) ▸ htail⟩

/-- **Lifting a step equivalence to runs.**  If, under an invariant, one step
satisfies `p` exactly when it satisfies `q`, then a run satisfies `p` at every
step exactly when it satisfies `q` at every step. -/
theorem meets_iff_meets {I : σ → Prop} {cond p q : σ → ℓ → Prop}
    (hinv : ∀ s l s', I s → cond s l → step s l = some s' → I s')
    (hiff : ∀ s l s', I s → cond s l → step s l = some s' → (p s l ↔ q s l))
    {ls : List ℓ} {s t : σ} (hI : I s) (hmeets : Meets step cond s ls)
    (hrun : run step s ls = some t) : Meets step p s ls ↔ Meets step q s ls := by
  constructor
  · intro hp
    exact meets_of_run (fun s l s' hI h => hinv s l s' hI h.1)
      (fun s l s' hI h hstep => (hiff s l s' hI h.1 hstep).mp h.2) hI (hmeets.and hp) hrun
  · intro hq
    exact meets_of_run (fun s l s' hI h => hinv s l s' hI h.1)
      (fun s l s' hI h hstep => (hiff s l s' hI h.1 hstep).mpr h.2) hI (hmeets.and hq) hrun

/-- In a run that is executed, a condition on the labels is one on all of them. -/
theorem meets_label_iff {q : ℓ → Prop} :
    ∀ {ls : List ℓ} {s t : σ}, run step s ls = some t →
      (Meets step (fun _ l => q l) s ls ↔ ∀ l ∈ ls, q l) := by
  intro ls
  induction ls with
  | nil => intro s t _; exact iff_of_true trivial fun _ h => (by cases h)
  | cons l ls ih =>
      intro s t hrun
      obtain ⟨s', hs', hrun'⟩ := (run_cons_eq_some step).mp hrun
      simp only [Meets, hs', Option.some_inj, forall_eq', List.forall_mem_cons, ih hrun']

/-- **A predicate no step restores.**  If, under an invariant, it holds after a
step exactly when it held before and the step meets a condition, then it holds
after a run exactly when it held before and every step met the condition. -/
theorem holds_iff_meets {I Q : σ → Prop} {q : σ → ℓ → Prop}
    (hinv : ∀ s l s', I s → step s l = some s' → I s')
    (hstep : ∀ s l s', I s → step s l = some s' → (Q s' ↔ Q s ∧ q s l)) :
    ∀ {ls : List ℓ} {s t : σ}, I s → run step s ls = some t →
      (Q t ↔ Q s ∧ Meets step q s ls) := by
  intro ls
  induction ls with
  | nil =>
      intro s t _ hrun
      cases hrun
      exact (and_iff_left trivial).symm
  | cons l ls ih =>
      intro s t hI hrun
      obtain ⟨s', hs', hrun'⟩ := (run_cons_eq_some step).mp hrun
      rw [ih (hinv s l s' hI hs') hrun', hstep s l s' hI hs', and_assoc]
      simp only [Meets, hs', Option.some_inj, forall_eq']

/-- **When a predicate survives exactly the steps that meet a condition**, a run
stays in it throughout exactly when all its steps meet the condition.  The invariant
is what holds as long as they do. -/
theorem always_iff_meets {I P : σ → Prop} {q : σ → ℓ → Prop} (hP : ∀ s, I s → P s)
    (hkeep : ∀ s l s', I s → step s l = some s' → q s l → I s')
    (hlose : ∀ s l s', I s → step s l = some s' → P s' → q s l) :
    ∀ {ls : List ℓ} {s t : σ}, I s → run step s ls = some t →
      (Always step P s ls ↔ Meets step q s ls) := by
  intro ls
  induction ls with
  | nil => intro s t hI _; exact iff_of_true (hP s hI) trivial
  | cons l ls ih =>
      intro s t hI hrun
      obtain ⟨s', hs', hrun'⟩ := (run_cons_eq_some step).mp hrun
      simp only [Always, Meets, hs', Option.some_inj, forall_eq', hP s hI, true_and]
      constructor
      · intro hall
        have hq := hlose s l s' hI hs' hall.head
        exact ⟨hq, (ih (hkeep s l s' hI hs' hq) hrun').mp hall⟩
      · rintro ⟨hq, hrest⟩
        exact (ih (hkeep s l s' hI hs' hq) hrun').mpr hrest

/-- **The variant rule.**  If, under an invariant and short of a goal, every label that
meets a condition is enabled and leads to the goal or lowers a rank, then any sequence of
labels that go on meeting the condition leads to the goal, and up to there every step is
taken under the invariant and short of the goal. -/
theorem exists_run_of_variant_meets {β : Type*} [Preorder β] [WellFoundedLT β]
    {I goal : σ → Prop} {cond : σ → ℓ → Prop} (rank : σ → β)
    (hstep : ∀ s l, I s → ¬goal s → cond s l →
      ∃ s', step s l = some s' ∧ I s' ∧ (goal s' ∨ rank s' < rank s)) (s : σ) :
    ∀ labels : ℕ → ℓ, (∀ n, Meets step cond s ((List.range n).map labels)) → I s →
      ∃ n t, run step s ((List.range n).map labels) = some t ∧
        Meets step (fun s _ => I s ∧ ¬goal s) s ((List.range n).map labels) ∧ I t ∧ goal t := by
  -- on the rank, for all states of that rank
  induction hr : rank s using WellFoundedLT.induction generalizing s with
  | ind r ih =>
      subst hr
      intro labels hcond hI
      have hsucc : ∀ n, (List.range (n + 1)).map labels =
          labels 0 :: (List.range n).map fun n => labels (n + 1) := by
        intro n
        rw [List.range_succ_eq_map, List.map_cons, List.map_map]
        rfl
      by_cases hgoal : goal s
      · exact ⟨0, s, rfl, trivial, hI, hgoal⟩
      · obtain ⟨s', hs', hI', hdone | hlt⟩ := hstep s (labels 0) hI hgoal (hcond 1).1
        · exact ⟨1, s', by simp [run_cons, hs'], ⟨⟨hI, hgoal⟩, fun _ _ => trivial⟩, hI', hdone⟩
        · have hrest : ∀ n, Meets step cond s' ((List.range n).map fun n => labels (n + 1)) := by
            intro n
            have hall := hcond (n + 1)
            rw [hsucc] at hall
            exact hall.2 s' hs'
          obtain ⟨n, t, hrun, hmeets, ht⟩ := ih (rank s') hlt s' rfl _ hrest hI'
          refine ⟨n + 1, t, ?_, ?_, ht⟩ <;> rw [hsucc]
          · rw [run_cons, hs']
            exact hrun
          · exact ⟨⟨hI, hgoal⟩, fun u hu => Option.some.inj (hs'.symm.trans hu) ▸ hmeets⟩

/-- The variant rule for labels of a kind, where only the end of the run matters. -/
theorem exists_run_of_variant {β : Type*} [Preorder β] [WellFoundedLT β] {I goal : σ → Prop}
    {moves : ℓ → Prop} (rank : σ → β)
    (hstep : ∀ s l, I s → ¬goal s → moves l →
      ∃ s', step s l = some s' ∧ I s' ∧ (goal s' ∨ rank s' < rank s)) (s : σ)
    (labels : ℕ → ℓ) (hmoves : ∀ n, moves (labels n)) (hI : I s) :
    ∃ n t, run step s ((List.range n).map labels) = some t ∧ goal t := by
  obtain ⟨n, t, hrun, -, -, ht⟩ := exists_run_of_variant_meets rank hstep s labels
    (fun n => meets_of_forall_mem fun l hl _ => by
      obtain ⟨i, -, rfl⟩ := List.mem_map.mp hl
      exact hmoves i) hI
  exact ⟨n, t, hrun, ht⟩

/-- **The variant rule with a bound**: a rank that is a number also bounds the steps. -/
theorem exists_run_of_variant_le {I goal : σ → Prop} {moves : ℓ → Prop} (rank : σ → ℕ)
    (hstep : ∀ s l, I s → ¬goal s → moves l →
      ∃ s', step s l = some s' ∧ I s' ∧ (goal s' ∨ rank s' < rank s)) {s : σ} (hI : I s) :
    ∀ labels : ℕ → ℓ, (∀ n, moves (labels n)) →
      ∃ n ≤ rank s + 1, ∃ t, run step s ((List.range n).map labels) = some t ∧ goal t := by
  -- on a bound of the rank
  have hbound : ∀ k {s : σ}, rank s ≤ k → I s → ∀ labels : ℕ → ℓ, (∀ n, moves (labels n)) →
      ∃ n ≤ k + 1, ∃ t, run step s ((List.range n).map labels) = some t ∧ goal t := by
    intro k
    induction k with
    | zero =>
        intro s hk hI labels hmoves
        by_cases hgoal : goal s
        · exact ⟨0, Nat.zero_le _, s, rfl, hgoal⟩
        · obtain ⟨s', hs', -, hdone | hlt⟩ := hstep s (labels 0) hI hgoal (hmoves 0)
          · exact ⟨1, Nat.le_refl 1, s', by simp [run_cons, hs'], hdone⟩
          · exact absurd (Nat.lt_of_lt_of_le hlt hk) (Nat.not_lt_zero _)
    | succ k ih =>
        intro s hk hI labels hmoves
        by_cases hgoal : goal s
        · exact ⟨0, Nat.zero_le _, s, rfl, hgoal⟩
        · obtain ⟨s', hs', hI', hdone | hlt⟩ := hstep s (labels 0) hI hgoal (hmoves 0)
          · exact ⟨1, Nat.le_add_left 1 _, s', by simp [run_cons, hs'], hdone⟩
          · obtain ⟨n, hn, t, hrun, ht⟩ := ih (Nat.le_of_lt_succ (Nat.lt_of_lt_of_le hlt hk))
              hI'
              (fun n => labels (n + 1)) (fun n => hmoves (n + 1))
            refine ⟨n + 1, Nat.succ_le_succ hn, t, ?_, ht⟩
            rw [List.range_succ_eq_map, List.map_cons, List.map_map, run_cons, hs']
            exact hrun
  exact hbound (rank s) (Nat.le_refl _) hI

end Run

/-- **A system that is the image of another one** under maps of states and labels has its
runs. -/
theorem run_map {ℓ' : Type*} {stepA : σ → ℓ → Option σ} {stepB : τ → ℓ' → Option τ} {f : σ → τ}
    {g : ℓ → ℓ'} (hstep : ∀ s l, stepB (f s) (g l) = (stepA s l).map f) (s : σ) (ls : List ℓ) :
    run stepB (f s) (ls.map g) = (run stepA s ls).map f := by
  induction ls generalizing s with
  | nil => rfl
  | cons l ls ih =>
      rw [List.map_cons, run_cons, run_cons, hstep]
      cases stepA s l with
      | none => rfl
      | some s' => exact ih s'

/-- **The lock-step rule.**  Two systems over the same labels, looked at through `f`
and `g`: if from states that look alike every step is enabled in both or in none
and leads to states that look alike again, then so does every run. -/
theorem run_lockstep {ρ : Type*} {stepA : σ → ℓ → Option σ} {stepB : τ → ℓ → Option τ}
    {f : σ → ρ} {g : τ → ρ} {cond : σ → ℓ → Prop}
    (hstep : ∀ s t l, f s = g t → cond s l → (stepA s l).map f = (stepB t l).map g) :
    ∀ {ls : List ℓ} {s : σ} {t : τ}, f s = g t → Meets stepA cond s ls →
      (run stepA s ls).map f = (run stepB t ls).map g := by
  intro ls
  induction ls with
  | nil => intro s t hst _; exact congrArg some hst
  | cons l ls ih =>
      intro s t hst hmeets
      have hone := hstep s t l hst hmeets.1
      rw [run_cons, run_cons]
      cases hA : stepA s l with
      | none =>
          cases hB : stepB t l with
          | none => rfl
          | some t' => rw [hA, hB] at hone; cases hone
      | some s' =>
          cases hB : stepB t l with
          | none => rw [hA, hB] at hone; cases hone
          | some t' =>
              rw [hA, hB] at hone
              exact ih (Option.some.inj hone) (hmeets.2 s' hA)

/-! ### A component of a system -/

section Projection

variable {ℓ' : Type*} {stepA : σ → ℓ → Option σ} {stepB : τ → ℓ' → Option τ} {part : σ → τ}
  {labelsOf : σ → ℓ → List ℓ'}

end Projection

end LabelledRun
