import Mathlib.Data.List.Pairwise
import Mathlib.Data.List.TakeWhile
import Mathlib.Data.List.Forall2
import Mathlib.Order.Lattice

/-!
# Stable priority order

Sequences kept from the highest to the lowest priority, elements of equal
priority in the order in which they arrived.

* `Before` — the order two elements have to stand in;
* `ahead` and `behind` — where a sequence splits for a newcomer of a given
  priority;
* `pairwise_insert` — a newcomer put between the two keeps the order;
* `scan` and `scan_eq` — the usual loop that looks for the place, remembering the
  element it passed last;
* `forall₂_ahead` and `forall₂_behind` — sequences related element by element split at
  the same place.

## Stability

Priorities alone do not determine an order, and a sort that is not stable would be free to reorder
equals at each insertion.  `Before` therefore takes a second relation, of arrival, which decides
between equals.  With a linear order of arrival there is one sequence in the right order for each
set of elements, and an insertion can be described without reference to how the place is found.
`scan` is the way a singly linked list finds it: it needs the element in front of the place, and
the first one may have none.
-/

namespace PriorityOrder

universe u v

variable {α : Type u} {β : Type v} [LinearOrder β]

/-- `x` has to stand before `y`: it has the higher priority, or the same one and
arrived earlier. -/
def Before (prio : α → β) (arrived : α → α → Prop) (x y : α) : Prop :=
  prio y < prio x ∨ prio x = prio y ∧ arrived x y

/-- The elements a newcomer of priority `p` has to let pass. -/
def ahead (prio : α → β) (p : β) (l : List α) : List α :=
  l.takeWhile fun y => decide (p ≤ prio y)

/-- The rest, which starts with the first element of lower priority. -/
def behind (prio : α → β) (p : β) (l : List α) : List α :=
  l.dropWhile fun y => decide (p ≤ prio y)

variable {prio : α → β} {arrived : α → α → Prop} {p : β} {l : List α}

theorem ahead_append_behind (prio : α → β) (p : β) (l : List α) :
    ahead prio p l ++ behind prio p l = l :=
  List.takeWhile_append_dropWhile

theorem le_of_mem_ahead {y : α} (h : y ∈ ahead prio p l) : p ≤ prio y := by
  simpa using List.mem_takeWhile_imp h

/-- In an ordered sequence everything behind the place of a newcomer has a lower
priority, not only the first element there. -/
theorem lt_of_mem_behind (hl : l.Pairwise (Before prio arrived)) {y : α}
    (h : y ∈ behind prio p l) : prio y < p := by
  induction l with
  | nil => simp [behind] at h
  | cons z l ih =>
      obtain ⟨hz, hl⟩ := List.pairwise_cons.mp hl
      by_cases hp : p ≤ prio z
      · refine ih hl ?_
        simpa [behind, hp] using h
      · have hzp : prio z < p := lt_of_not_ge hp
        have hmem : y = z ∨ y ∈ l := by simpa [behind, hp] using h
        rcases hmem with rfl | hy
        · exact hzp
        · rcases hz y hy with hlt | ⟨heq, -⟩
          · exact hlt.trans hzp
          · exact heq ▸ hzp

/-- **A newcomer in its place keeps the order.** -/
theorem pairwise_insert (hl : l.Pairwise (Before prio arrived)) {x : α}
    (harrived : ∀ y ∈ l, arrived y x) :
    (ahead prio (prio x) l ++ x :: behind prio (prio x) l).Pairwise
      (Before prio arrived) := by
  have hsplit : (ahead prio (prio x) l ++ behind prio (prio x) l).Pairwise
      (Before prio arrived) := by
    rwa [ahead_append_behind]
  obtain ⟨hahead, hbehind, hcross⟩ := List.pairwise_append.mp hsplit
  refine List.pairwise_append.mpr ⟨hahead, List.pairwise_cons.mpr ⟨?_, hbehind⟩, ?_⟩
  · intro y hy
    exact Or.inl (lt_of_mem_behind hl hy)
  · intro y hy z hz
    rcases List.mem_cons.mp hz with rfl | hz
    · have hyl : y ∈ l := by
        rw [← ahead_append_behind prio (prio z) l]
        exact List.mem_append_left _ hy
      rcases (le_of_mem_ahead hy).lt_or_eq with hlt | heq
      · exact Or.inl hlt
      · exact Or.inr ⟨heq.symm, harrived y hyl⟩
    · exact hcross y hy z hz

/-- The search loop: the element passed last and the first element of lower
priority. -/
def scan (prio : α → β) (p : β) : Option α → List α → Option α × Option α
  | prev, [] => (prev, none)
  | prev, y :: ys => if prio y < p then (prev, some y) else scan prio p (some y) ys

/-- The loop finds the place. -/
theorem scan_eq (prio : α → β) (p : β) (prev : Option α) (l : List α) :
    scan prio p prev l =
      ((ahead prio p l).getLast?.or prev, (behind prio p l).head?) := by
  induction l generalizing prev with
  | nil => simp [scan, ahead, behind]
  | cons y l ih =>
      by_cases hp : p ≤ prio y
      · have hahead : ahead prio p (y :: l) = y :: ahead prio p l := by
          simp [ahead, hp]
        have hbehind : behind prio p (y :: l) = behind prio p l := by
          simp [behind, hp]
        rw [scan, if_neg (not_lt.mpr hp), ih, hahead, hbehind, List.getLast?_cons]
        cases (ahead prio p l).getLast? <;> rfl
      · rw [scan, if_pos (lt_of_not_ge hp)]
        simp [ahead, behind, hp]

section Related

variable {γ : Type*} {prio' : γ → β} {R : α → γ → Prop} {m : List γ}

/-- Sequences related element by element, with the same priorities, split at the same
place. -/
theorem forall₂_ahead (h : List.Forall₂ R l m)
    (hprio : List.Forall₂ (fun x y => prio x = prio' y) l m) (p : β) :
    List.Forall₂ R (ahead prio p l) (ahead prio' p m) := by
  induction h with
  | nil => exact .nil
  | @cons x y l m hxy _ ih =>
      obtain ⟨hp, hrest⟩ := List.forall₂_cons.mp hprio
      by_cases hle : p ≤ prio x
      · simpa [ahead, ← hp, hle] using ⟨hxy, ih hrest⟩
      · simp [ahead, ← hp, hle]

theorem forall₂_behind (h : List.Forall₂ R l m)
    (hprio : List.Forall₂ (fun x y => prio x = prio' y) l m) (p : β) :
    List.Forall₂ R (behind prio p l) (behind prio' p m) := by
  induction h with
  | nil => exact .nil
  | @cons x y l m hxy htail ih =>
      obtain ⟨hp, hrest⟩ := List.forall₂_cons.mp hprio
      by_cases hle : p ≤ prio x
      · simpa [behind, ← hp, hle] using ih hrest
      · simpa [behind, ← hp, hle] using ⟨hxy, htail⟩

end Related

end PriorityOrder
