import Mathlib.Data.Finset.Card
import Mathlib.Data.Finset.Insert
import Mathlib.Order.Lattice

/-!
# Bounded maps that forget what was used least recently

What a cache of `D` entries is for, said without slots and sentinels: a partial map
from keys to values that holds at most `D` keys, and with every key the time it was
last used.

* `BoundedMap K V T D` — such a map, the bound being part of it;
* `Step` — looking a key up, adding one that is absent, and forgetting all of them; an
  addition to a full map drops **one** key, of those with the least time;
* `Run` — a sequence of steps, with the answers given and the changes made;
* `Remembers` — **what a history of changes says of a key**: its last addition, unless
  it has been dropped since;
* `Run.entries_iff` — a map holds exactly what its history remembers.

## The bound as part of the type

A map with more than `D` keys cannot be built, so an operation that adds a key has to show that
there is room, or say which key goes.  `insert` and `replace` ask for these facts as arguments,
and `Step` has one constructor for each.  Which of several keys with the least time is dropped is
not determined: an implementation picks one, and refines the map by doing so.

A history is a list of changes, oldest first.  It determines the map up to the times, and what a
lookup must answer can be read off it without any map (`Remembers`).
-/

namespace BoundedMap

universe u v w

/-- A partial map of at most `D` keys, with the time each of them was last used. -/
structure Store (K : Type u) (V : Type v) (T : Type w) (D : ℕ) where
  entries : K → Option (V × T)
  keys : Finset K
  mem_keys : ∀ k, k ∈ keys ↔ (entries k).isSome
  card_le : keys.card ≤ D

/-- What can be asked of a cache; every lookup and every addition comes with the time
at which it is made. -/
inductive Op (K : Type u) (V : Type v) (T : Type w) where
  | clear
  | check (k : K) (now : T)
  | add (k : K) (v : V) (now : T)

/-- What happens to the keys. -/
inductive Change (K : Type u) (V : Type v) where
  | cleared
  | added (k : K) (v : V)
  | evicted (k : K)

variable {K : Type u} {V : Type v} {T : Type w} {D : ℕ}

/-! ### Histories -/

/-- The value held for `k` so far is not held any more. -/
def Change.Drops (k : K) : Change K V → Prop
  | .cleared => True
  | .added k' _ => k' = k
  | .evicted k' => k' = k

/-- **What a history remembers of a key**: the value of its last addition, provided it
was neither cleared nor evicted since.  The oldest change comes first. -/
def Remembers (changes : List (Change K V)) (k : K) (v : V) : Prop :=
  ∃ before after, changes = before ++ .added k v :: after ∧ ∀ c ∈ after, ¬c.Drops k

section Histories

variable {changes : List (Change K V)} {k : K} {v : V}

theorem not_remembers_nil : ¬Remembers ([] : List (Change K V)) k v := by
  rintro ⟨before, after, h, -⟩
  simp at h

/-- One more change: the addition of the key itself, or one that leaves it alone. -/
theorem remembers_append_singleton {c : Change K V} :
    Remembers (changes ++ [c]) k v ↔
      c = .added k v ∨ Remembers changes k v ∧ ¬c.Drops k := by
  constructor
  · rintro ⟨before, after, h, hafter⟩
    rcases List.eq_nil_or_concat after with rfl | ⟨after', c', rfl⟩
    · have heq : changes ++ [c] = before ++ [.added k v] := h
      exact Or.inl (List.head_eq_of_cons_eq (List.append_inj' heq rfl).2)
    · rw [List.concat_eq_append, ← List.cons_append, ← List.append_assoc] at h
      obtain ⟨hchanges, hc⟩ := List.append_inj' h rfl
      obtain rfl : c = c' := List.head_eq_of_cons_eq hc
      rw [List.concat_eq_append] at hafter
      exact Or.inr ⟨⟨before, after', hchanges,
        fun d hd => hafter d (List.mem_append_left _ hd)⟩, hafter c (by simp)⟩
  · rintro (rfl | ⟨⟨before, after, rfl, hafter⟩, hc⟩)
    · exact ⟨changes, [], rfl, by simp⟩
    · refine ⟨before, after ++ [c], by simp, fun d hd => ?_⟩
      rcases List.mem_append.mp hd with hd | hd
      · exact hafter d hd
      · rwa [List.mem_singleton.mp hd]

end Histories

/-! ### Operations -/

namespace Store

variable [DecidableEq K] (M : Store K V T D)

/-- Nothing is held. -/
def empty : Store K V T D where
  entries _ := none
  keys := ∅
  mem_keys k := by simp
  card_le := Nat.zero_le D

/-- A key that is held is used. -/
def touch (k : K) (v : V) (now : T) (hheld : k ∈ M.keys) : Store K V T D where
  entries := Function.update M.entries k (some (v, now))
  keys := M.keys
  mem_keys k' := by
    by_cases hk : k' = k
    · subst hk
      simpa using hheld
    · rw [Function.update_of_ne hk]
      exact M.mem_keys k'
  card_le := M.card_le

/-- A key is added where there is room for it. -/
def insert (k : K) (v : V) (now : T) (hroom : M.keys.card < D) : Store K V T D where
  entries := Function.update M.entries k (some (v, now))
  keys := Insert.insert k M.keys
  mem_keys k' := by
    by_cases hk : k' = k
    · subst hk
      simp
    · rw [Function.update_of_ne hk, Finset.mem_insert, ← M.mem_keys k']
      exact or_iff_right hk
  card_le := (Finset.card_insert_le k M.keys).trans hroom

/-- A key is added in the place of another one. -/
def replace (victim k : K) (v : V) (now : T) (hvictim : victim ∈ M.keys) :
    Store K V T D where
  entries := Function.update (Function.update M.entries victim none) k (some (v, now))
  keys := Insert.insert k (M.keys.erase victim)
  mem_keys k' := by
    by_cases hk : k' = k
    · subst hk
      simp
    · rw [Function.update_of_ne hk, Finset.mem_insert, or_iff_right hk, Finset.mem_erase]
      by_cases hv : k' = victim
      · subst hv
        simp
      · rw [Function.update_of_ne hv, ← M.mem_keys k']
        exact and_iff_right hv
  card_le := by
    have hcard := Finset.card_insert_le k (M.keys.erase victim)
    have hpos := Finset.card_pos.mpr ⟨victim, hvictim⟩
    have hle := M.card_le
    rw [Finset.card_erase_of_mem hvictim] at hcard
    omega

end Store

/-- The key was last used no later than any other. -/
def Store.LeastUsed [LE T] (M : Store K V T D) (victim : K) : Prop :=
  victim ∈ M.keys ∧ ∀ k v t v' t', M.entries victim = some (v, t) →
    M.entries k = some (v', t') → t ≤ t'

/-- **One step**: what is asked, the value found by a lookup, the changes, and the map
afterwards. -/
inductive Step [DecidableEq K] [LE T] (M : Store K V T D) :
    Op K V T → Option V → List (Change K V) → Store K V T D → Prop
  | clear : Step M .clear none [.cleared] .empty
  | hit {k : K} {v : V} {t now : T} (hheld : k ∈ M.keys) (hentry : M.entries k = some (v, t)) :
      Step M (.check k now) (some v) [] (M.touch k v now hheld)
  | miss {k : K} {now : T} (habsent : k ∉ M.keys) : Step M (.check k now) none [] M
  | add {k : K} {v : V} {now : T} (habsent : k ∉ M.keys) (hroom : M.keys.card < D) :
      Step M (.add k v now) none [.added k v] (M.insert k v now hroom)
  | evict {k : K} {v : V} {now : T} (habsent : k ∉ M.keys) (hfull : M.keys.card = D)
      {victim : K} (hvictim : M.LeastUsed victim) :
      Step M (.add k v now) none [.evicted victim, .added k v]
        (M.replace victim k v now hvictim.1)

/-- **A sequence of steps**, with the answers and the changes in order. -/
inductive Run [DecidableEq K] [LE T] : Store K V T D → List (Op K V T) → List (Option V) →
    List (Change K V) → Store K V T D → Prop
  | nil (M : Store K V T D) : Run M [] [] [] M
  | cons {M M₁ M₂ : Store K V T D} {op : Op K V T} {ops : List (Op K V T)} {answer : Option V}
      {answers : List (Option V)} {changes rest : List (Change K V)}
      (hstep : Step M op answer changes M₁) (hrun : Run M₁ ops answers rest M₂) :
      Run M (op :: ops) (answer :: answers) (changes ++ rest) M₂

/-! ### A map holds what its history remembers -/

section Remembered

/-- The map holds exactly what the history remembers. -/
def HoldsRemembered (M : Store K V T D) (past : List (Change K V)) : Prop :=
  ∀ k v, (∃ t, M.entries k = some (v, t)) ↔ Remembers past k v

theorem holdsRemembered_empty : HoldsRemembered (.empty : Store K V T D) [] := by
  intro k v
  exact iff_of_false (fun ⟨_, h⟩ => by cases h) not_remembers_nil

variable [DecidableEq K] {M M' : Store K V T D} {past : List (Change K V)}

/-- Writing one key, when the history remembers what is held of the others. -/
theorem holdsRemembered_update {entries : K → Option (V × T)} {k : K} {v : V} {now : T}
    (h : ∀ k' v', k' ≠ k →
      ((∃ t, entries k' = some (v', t)) ↔ Remembers past k' v')) (k' : K) (v' : V) :
    (∃ t, Function.update entries k (some (v, now)) k' = some (v', t)) ↔
      Remembers (past ++ [.added k v]) k' v' := by
  rw [remembers_append_singleton]
  by_cases hk : k' = k
  · subst hk
    rw [Function.update_self]
    constructor
    · rintro ⟨t, heq⟩
      cases heq
      exact Or.inl rfl
    · rintro (heq | ⟨-, hdrop⟩)
      · cases heq
        exact ⟨now, rfl⟩
      · exact absurd rfl hdrop
  · rw [Function.update_of_ne hk, h k' v' hk]
    constructor
    · exact fun hpast => Or.inr ⟨hpast, fun heq => hk heq.symm⟩
    · rintro (heq | ⟨hpast, -⟩)
      · cases heq
        exact absurd rfl hk
      · exact hpast

variable [LE T]

theorem Step.holdsRemembered {op : Op K V T} {answer : Option V} {changes : List (Change K V)}
    (h : HoldsRemembered M past) (hstep : Step M op answer changes M') :
    HoldsRemembered M' (past ++ changes) := by
  cases hstep with
  | clear =>
      intro k v
      rw [remembers_append_singleton]
      refine iff_of_false (fun ⟨_, h⟩ => by cases h) ?_
      rintro (heq | ⟨-, hdrop⟩)
      · cases heq
      · exact hdrop trivial
  | @hit k v t now hheld hentry =>
      rw [List.append_nil]
      intro k' v'
      rw [← h k' v']
      by_cases hk : k' = k
      · subst hk
        simp [Store.touch, hentry]
      · simp [Store.touch, hk]
  | miss habsent =>
      rw [List.append_nil]
      exact h
  | add habsent hroom => exact holdsRemembered_update fun k' v' _ => h k' v'
  | @evict k v now habsent hfull victim hvictim =>
      rw [show past ++ [.evicted victim, .added k v] =
        past ++ [.evicted victim] ++ [.added k v] by simp]
      refine holdsRemembered_update fun k' v' _ => ?_
      rw [remembers_append_singleton, ← h k' v']
      by_cases hv : k' = victim
      · subst hv
        rw [Function.update_self]
        refine iff_of_false (fun ⟨_, h⟩ => by cases h) ?_
        rintro (heq | ⟨-, hdrop⟩)
        · cases heq
        · exact hdrop rfl
      · rw [Function.update_of_ne hv]
        constructor
        · exact fun hheld => Or.inr ⟨hheld, fun heq => hv heq.symm⟩
        · rintro (heq | ⟨hheld, -⟩)
          · cases heq
          · exact hheld

theorem Run.holdsRemembered {ops : List (Op K V T)} {answers : List (Option V)}
    {changes : List (Change K V)} (hrun : Run M ops answers changes M')
    (h : HoldsRemembered M past) : HoldsRemembered M' (past ++ changes) := by
  induction hrun generalizing past with
  | nil M => rwa [List.append_nil]
  | cons hstep _ ih =>
      rw [← List.append_assoc]
      exact ih (hstep.holdsRemembered h)

/-- **A map holds exactly what its history remembers.** -/
theorem Run.entries_iff {ops : List (Op K V T)} {answers : List (Option V)}
    {changes : List (Change K V)} (hrun : Run .empty ops answers changes M) (k : K) (v : V) :
    (∃ t, M.entries k = some (v, t)) ↔ Remembers changes k v :=
  hrun.holdsRemembered holdsRemembered_empty k v

end Remembered

end BoundedMap
