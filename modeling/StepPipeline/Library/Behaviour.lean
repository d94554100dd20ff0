import StepPipeline.Library.LabelledRun

/-!
# Behaviours

What a part of a program does, seen from outside, and what it means that a labelled
transition system does that.

* `Behaviour` — from a state: the events that may be seen, and how it may end, in a
  state or with a fault;
* `Behaviour.Skip`, `Behaviour.Seq` and `Behaviour.Each` — nothing, one behaviour behind
  another, and one for each element of a list;
* `Behaviour.Carries` — what a behaviour cannot tell apart;
* `Behaviour.each_only_iff` and `Behaviour.each_independent_iff` — lists of which one element
  is served, and lists whose elements cannot tell what the others have left behind;
* `Behaviour.Keeps` — what a behaviour leaves as it is;
* `Machine` — a transition system of which one party is left alone;
* `Machine.Plays` — **a machine plays a behaviour**: left alone it comes to an end in a
  way the behaviour allows (`sound`), and every way the behaviour allows is one of its
  runs (`complete`);
* `Plays.seq`, `Plays.each_cons` — what is played part by part is played as a whole, so
  that a client proves both directions for single steps only;
* `Plays.lift` — a machine that is a part of another one;
* `Plays.undisturbed` — a run in which others move too, but not while the party can.

## Two directions at once

That a machine does only what a behaviour allows says little if the behaviour allows too much;
that it can do everything the behaviour allows excludes specifications that are too wide.  `Plays`
has both, and the rules keep both, so a client who describes a program by behaviours gets an
equivalence in the end without ever proving two inclusions.

Soundness is about infinite sequences of labels given in advance: whatever the surroundings
answer, the machine gets to an exit within finitely many steps.  So termination is part of what is
played.  Completeness picks the answers.

A fault ends a behaviour, and what would have come behind it is not seen; `Seq` and `Each`
propagate it, as an exception does.
-/

universe u v

/-- What a part of a program does from a state of `X`: the events that are seen, and how it ends.
It is a relation, so a program may have several ways to go on, and a part that never ends has
none. -/
abbrev Behaviour (X E ε Y : Type*) := X → List E → Except ε Y → Prop

namespace Behaviour

variable {X Y Z E ε α : Type*}

/-- `R`, and then `S` unless `R` has ended with a fault. -/
inductive Seq (R : Behaviour X E ε Y) (S : Behaviour Y E ε Z) : Behaviour X E ε Z
  | stop {x : X} {t : List E} {u : ε} (h : R x t (.error u)) : Seq R S x t (.error u)
  | go {x : X} {y : Y} {t t' : List E} {r : Except ε Z} (h : R x t (.ok y)) (h' : S y t' r) :
      Seq R S x (t ++ t') r

/-- `R a` for the elements `a` of a list, in order, up to the first fault. -/
inductive Each (R : α → Behaviour X E ε X) : List α → Behaviour X E ε X
  | nil {x : X} : Each R [] x [] (.ok x)
  | stop {a : α} {l : List α} {x : X} {t : List E} {u : ε} (h : R a x t (.error u)) :
      Each R (a :: l) x t (.error u)
  | cons {a : α} {l : List α} {x y : X} {t t' : List E} {r : Except ε X}
      (h : R a x t (.ok y)) (h' : Each R l y t' r) : Each R (a :: l) x (t ++ t') r

/-- Nothing is seen, and nothing changes. -/
inductive Skip : Behaviour X E ε X
  | skip {x : X} : Skip x [] (.ok x)

theorem seq_skip_iff {R : Behaviour X E ε Y} {x : X} {t : List E} {r : Except ε Y} :
    Seq R Skip x t r ↔ R x t r := by
  constructor
  · rintro (h | ⟨h, ⟨⟩⟩)
    · exact h
    · rwa [List.append_nil]
  · intro h
    cases r with
    | error u => exact .stop h
    | ok y =>
        have hgo : Seq R Skip x (t ++ []) (.ok y) := .go h .skip
        rwa [List.append_nil] at hgo

theorem skip_seq_iff {R : Behaviour X E ε Y} {x : X} {t : List E} {r : Except ε Y} :
    Seq Skip R x t r ↔ R x t r := by
  constructor
  · intro h
    cases h with
    | stop h => cases h
    | go h h' =>
        cases h
        exact h'
  · intro h
    have hgo : Seq Skip R x ([] ++ t) r := .go .skip h
    exact hgo

section Each

variable {R : α → Behaviour X E ε X} {l : List α} {x : X} {t : List E} {r : Except ε X}

theorem each_nil_iff : Each R [] x t r ↔ t = [] ∧ r = .ok x := by
  constructor
  · rintro ⟨⟩
    exact ⟨rfl, rfl⟩
  · rintro ⟨rfl, rfl⟩
    exact .nil

theorem each_cons_iff {a : α} : Each R (a :: l) x t r ↔ Seq (R a) (Each R l) x t r := by
  constructor
  · rintro (_ | h | ⟨h, h'⟩)
    · exact .stop h
    · exact .go h h'
  · rintro (h | ⟨h, h'⟩)
    · exact .stop h
    · exact .cons h h'

/-- A list of images. -/
theorem each_map_iff {β : Type*} {S : β → Behaviour X E ε X} {f : α → β} :
    Each S (l.map f) x t r ↔ Each (fun a => S (f a)) l x t r := by
  induction l generalizing x t with
  | nil => rw [List.map_nil, each_nil_iff, each_nil_iff]
  | cons a l ih =>
      rw [List.map_cons, each_cons_iff, each_cons_iff]
      constructor
      · rintro (h | ⟨h, h'⟩)
        · exact .stop h
        · exact .go h (ih.mp h')
      · rintro (h | ⟨h, h'⟩)
        · exact .stop h
        · exact .go h (ih.mpr h')

/-- Elements that do nothing. -/
theorem each_skip_iff (hskip : ∀ a ∈ l, R a = Skip) : Each R l x t r ↔ Skip x t r := by
  induction l generalizing x t r with
  | nil =>
      rw [each_nil_iff]
      exact ⟨fun ⟨ht, hr⟩ => ht ▸ hr ▸ .skip, fun h => by cases h; exact ⟨rfl, rfl⟩⟩
  | cons a l ih =>
      have hrest : Each R l = Skip := by
        ext x t r
        exact ih fun b hb => hskip b (List.mem_cons_of_mem a hb)
      rw [each_cons_iff, hskip a (List.mem_cons_self ..), hrest, skip_seq_iff]

/-- **The one element that does something** is all there is to be seen. -/
theorem each_only_iff {a : α} (ha : a ∈ l) (hnodup : l.Nodup)
    (hskip : ∀ b ∈ l, b ≠ a → R b = Skip) : Each R l x t r ↔ R a x t r := by
  induction l generalizing x t r with
  | nil => cases ha
  | cons b l ih =>
      obtain ⟨hb, hnodup⟩ := List.nodup_cons.mp hnodup
      rw [each_cons_iff]
      by_cases heq : b = a
      · subst heq
        have hrest : Each R l = Skip := by
          ext x t r
          refine each_skip_iff fun c hc => hskip c (List.mem_cons_of_mem b hc) ?_
          rintro rfl
          exact hb hc
        rw [hrest, seq_skip_iff]
      · have ha : a ∈ l := (List.mem_cons.mp ha).resolve_left (Ne.symm heq)
        have hrest : Each R l = R a := by
          ext x t r
          exact ih ha hnodup fun c hc => hskip c (List.mem_cons_of_mem b hc)
        rw [hskip b (List.mem_cons_self ..) heq, hrest, skip_seq_iff]

end Each

/-! ### Related states -/

section Carries

/-- The same fault, or states that `rel` relates. -/
inductive SameEnd (rel : Y → Z → Prop) : Except ε Y → Except ε Z → Prop
  | ok {y : Y} {z : Z} (h : rel y z) : SameEnd rel (.ok y) (.ok z)
  | error (u : ε) : SameEnd rel (.error u) (.error u)

theorem SameEnd.of_ok {rel : Y → Z → Prop} {y : Y} {r : Except ε Z}
    (h : SameEnd rel (.ok y) r) : ∃ z, r = .ok z ∧ rel y z := by
  cases h with
  | ok h => exact ⟨_, rfl, h⟩

theorem SameEnd.of_error {rel : Y → Z → Prop} {u : ε} {r : Except ε Z}
    (h : SameEnd rel (.error u) r) : r = .error u := by
  cases h
  rfl

theorem SameEnd.map {Y' Z' : Type*} {rel : Y → Z → Prop} {rel' : Y' → Z' → Prop} {f : Y → Y'}
    {g : Z → Z'} {r : Except ε Y} {r' : Except ε Z} (h : SameEnd rel r r')
    (hmap : ∀ y z, rel y z → rel' (f y) (g z)) : SameEnd rel' (r.map f) (r'.map g) := by
  cases h with
  | ok h => exact .ok (hmap _ _ h)
  | error u => exact .error u

/-- **From related states the same is seen**, and it ends in related states.  With a relation that
forgets a component of the state this says that the component is not looked at. -/
def Carries (rel : X → X → Prop) (rel' : Y → Y → Prop) (R : Behaviour X E ε Y) : Prop :=
  ∀ x x' t r, rel x x' → R x t r → ∃ r', R x' t r' ∧ SameEnd rel' r r'

variable {rel : X → X → Prop} {rel' : Y → Y → Prop} {rel'' : Z → Z → Prop}

theorem Carries.seq {R : Behaviour X E ε Y} {S : Behaviour Y E ε Z} (hR : Carries rel rel' R)
    (hS : Carries rel' rel'' S) : Carries rel rel'' (Seq R S) := by
  intro x x' t r hx h
  cases h with
  | stop h =>
      obtain ⟨r', h', hend⟩ := hR _ _ _ _ hx h
      cases hend with
      | error => exact ⟨_, .stop h', .error _⟩
  | go h hrest =>
      obtain ⟨r', h', hend⟩ := hR _ _ _ _ hx h
      cases hend with
      | ok hy =>
          obtain ⟨r', hrest', hend⟩ := hS _ _ _ _ hy hrest
          exact ⟨r', .go h' hrest', hend⟩

theorem Carries.each {R : α → Behaviour X E ε X} {l : List α}
    (h : ∀ a ∈ l, Carries rel rel (R a)) : Carries rel rel (Each R l) := by
  induction l with
  | nil =>
      intro x x' t r hx hr
      obtain ⟨rfl, rfl⟩ := each_nil_iff.mp hr
      exact ⟨_, .nil, .ok hx⟩
  | cons a l ih =>
      intro x x' t r hx hr
      have hseq := (h a (by simp)).seq (ih fun b hb => h b (List.mem_cons_of_mem a hb))
      obtain ⟨r', hr', hend⟩ := hseq _ _ _ _ hx (each_cons_iff.mp hr)
      exact ⟨r', each_cons_iff.mpr hr', hend⟩

/-- **Elements that do not notice each other**: what is seen of a list is what is seen of its
elements, each for itself.  Every one of them may as well begin where the list begins. -/
theorem each_independent_iff {R : α → Behaviour X E ε X} {l : List α}
    (hsymm : ∀ x y, rel x y → rel y x) (hcarries : ∀ a ∈ l, Carries rel rel (R a))
    (hkeeps : ∀ a ∈ l, ∀ x t y, R a x t (.ok y) → rel x y) {x : X} {t : List E} :
    (∃ y, Each R l x t (.ok y)) ↔
      ∃ ts : List (List E), t = ts.flatten ∧
        List.Forall₂ (fun a t => ∃ y, R a x t (.ok y)) l ts := by
  induction l generalizing t with
  | nil =>
      constructor
      · rintro ⟨y, h⟩
        obtain ⟨rfl, -⟩ := each_nil_iff.mp h
        exact ⟨[], rfl, .nil⟩
      · rintro ⟨ts, rfl, h⟩
        cases h
        exact ⟨x, .nil⟩
  | cons a l ih =>
      have hrest : Carries rel rel (Each R l) :=
        Carries.each fun b hb => hcarries b (List.mem_cons_of_mem a hb)
      have ih' := fun {t} => @ih (fun b hb => hcarries b (List.mem_cons_of_mem a hb))
        (fun b hb => hkeeps b (List.mem_cons_of_mem a hb)) t
      constructor
      · rintro ⟨z, h⟩
        obtain ⟨y, t₁, t₂, rfl, hone, hl⟩ : ∃ y t₁ t₂, t = t₁ ++ t₂ ∧ R a x t₁ (.ok y) ∧
            Each R l y t₂ (.ok z) := by
          cases h with
          | cons ha hl => exact ⟨_, _, _, rfl, ha, hl⟩
        -- the others would have done the same without the first one
        have hrel := hsymm _ _ (hkeeps a (List.mem_cons_self ..) _ _ _ hone)
        obtain ⟨r, hl', hend⟩ := hrest _ _ _ _ hrel hl
        obtain ⟨z', rfl, -⟩ := hend.of_ok
        obtain ⟨ts, rfl, hts⟩ := ih'.mp ⟨z', hl'⟩
        exact ⟨t₁ :: ts, rfl, .cons ⟨_, hone⟩ hts⟩
      · rintro ⟨ts, rfl, h⟩
        cases h with
        | @cons _ t₁ _ ts hone hts =>
            obtain ⟨y, hone⟩ := hone
            obtain ⟨z, hl⟩ := ih'.mpr ⟨ts, rfl, hts⟩
            have hrel := hkeeps a (List.mem_cons_self ..) _ _ _ hone
            obtain ⟨r, hl', hend⟩ := hrest _ _ _ _ hrel hl
            obtain ⟨z', rfl, -⟩ := hend.of_ok
            exact ⟨z', .cons hone hl'⟩

end Carries

/-! ### What a behaviour leaves as it is -/

section Keeps

/-- `R` keeps a property of the state. -/
def Keeps (I : X → Prop) (R : Behaviour X E ε X) : Prop :=
  ∀ x t y, I x → R x t (.ok y) → I y

variable {I : X → Prop}

theorem Keeps.seq {R S : Behaviour X E ε X} (hR : Keeps I R) (hS : Keeps I S) :
    Keeps I (Seq R S) := by
  rintro x t z hx (_ | ⟨h, h'⟩)
  exact hS _ _ _ (hR _ _ _ hx h) h'

theorem Keeps.each {R : α → Behaviour X E ε X} {l : List α} (h : ∀ a ∈ l, Keeps I (R a)) :
    Keeps I (Each R l) := by
  induction l with
  | nil =>
      intro x t y hx hr
      obtain ⟨-, hy⟩ := each_nil_iff.mp hr
      exact Except.ok.inj hy ▸ hx
  | cons a l ih =>
      intro x t y hx hr
      have hseq := (h a (List.mem_cons_self ..)).seq
        (ih fun b hb => h b (List.mem_cons_of_mem a hb))
      exact hseq x t y hx (each_cons_iff.mp hr)

end Keeps

end Behaviour

/-- A transition system of which the party that takes the labels in `mine` is left
alone. -/
structure Machine (σ : Type u) (ℓ : Type v) (E ε : Type*) where
  step : σ → ℓ → Option σ
  mine : ℓ → Prop
  /-- The events seen so far. -/
  seen : σ → List E
  /-- How the machine has left defined behaviour, if it has. -/
  fault : σ → Option ε

namespace Machine

open LabelledRun Behaviour

variable {σ : Type u} {ℓ : Type v} {E ε X Y Z α : Type*} (M : Machine σ ℓ E ε)

/-- The machine has gone from `s` to `s'`, the events `t` have been seen, and it has ended
as `r` says. -/
def Ended (s s' : σ) (t : List E) (Exit : σ → Y → Prop) (r : Except ε Y) : Prop :=
  M.seen s' = M.seen s ++ t ∧
    match r with
    | .ok y => Exit s' y
    | .error u => M.fault s' = some u

/-- **The machine plays `R`** from the states `Entry` describes to those `Exit`
describes. -/
structure Plays (Entry : σ → X → Prop) (Exit : σ → Y → Prop) (R : Behaviour X E ε Y) :
    Prop where
  /-- Left alone it comes to an end, in a way `R` allows, whatever its labels carry. -/
  sound : ∀ s x (labels : ℕ → ℓ), Entry s x → (∀ i, M.mine (labels i)) →
    ∃ n s' t r, run M.step s ((List.range n).map labels) = some s' ∧ R x t r ∧
      M.Ended s s' t Exit r
  /-- Every way `R` allows is one of its runs. -/
  complete : ∀ s x t r, Entry s x → R x t r →
    ∃ labels s', (∀ l ∈ labels, M.mine l) ∧ run M.step s labels = some s' ∧
      M.Ended s s' t Exit r

variable {M} {s s' s'' : σ} {t t' : List E} {Entry : σ → X → Prop} {Mid : σ → Y → Prop}
  {Exit : σ → Z → Prop}

/-- What has been seen before adds up. -/
theorem Ended.after (hseen : M.seen s' = M.seen s ++ t) {r : Except ε Z}
    (h : M.Ended s' s'' t' Exit r) : M.Ended s s'' (t ++ t') Exit r :=
  ⟨by rw [h.1, hseen, List.append_assoc], h.2⟩

/-- Labels taken one behind the other from the beginning. -/
theorem run_labels_add {step : σ → ℓ → Option σ} {labels : ℕ → ℓ} {n m : ℕ}
    (h : run step s ((List.range n).map labels) = some s')
    (h' : run step s' ((List.range m).map fun i => labels (n + i)) = some s'') :
    run step s ((List.range (n + m)).map labels) = some s'' := by
  rw [List.range_add, List.map_append, List.map_map, run_append_eq_some]
  exact ⟨s', h, h'⟩

theorem run_labels_one {step : σ → ℓ → Option σ} {labels : ℕ → ℓ}
    (h : step s (labels 0) = some s') : run step s ((List.range 1).map labels) = some s' := by
  simp [run_cons, h]

/-- A run of one label. -/
theorem Ended.of_step {Exit : σ → Y → Prop} {r : Except ε Y} {l : ℓ} (hl : M.mine l)
    (hstep : M.step s l = some s') (hended : M.Ended s s' t Exit r) :
    ∃ labels s', (∀ l ∈ labels, M.mine l) ∧ run M.step s labels = some s' ∧
      M.Ended s s' t Exit r :=
  ⟨[l], s', by simpa using hl, by simp [run_cons, hstep], hended⟩

/-- **One step**: whatever its label carries, it is one `R` allows; and whatever `R` allows is
such a step.  This is the only rule for which a client looks into the transition system. -/
theorem Plays.step {Entry : σ → X → Prop} {Exit : σ → Y → Prop} {R : Behaviour X E ε Y}
    (hsound : ∀ s x l, Entry s x → M.mine l →
      ∃ s' t r, M.step s l = some s' ∧ R x t r ∧ M.Ended s s' t Exit r)
    (hcomplete : ∀ s x t r, Entry s x → R x t r →
      ∃ l s', M.mine l ∧ M.step s l = some s' ∧ M.Ended s s' t Exit r) :
    M.Plays Entry Exit R where
  sound s x labels hentry hmine := by
    obtain ⟨s', t, r, hstep, hR, hended⟩ := hsound s x (labels 0) hentry (hmine 0)
    exact ⟨1, s', t, r, run_labels_one hstep, hR, hended⟩
  complete s x t r hentry hR := by
    obtain ⟨l, s', hmine, hstep, hended⟩ := hcomplete s x t r hentry hR
    exact hended.of_step hmine hstep

/-- **A step that is not seen.** -/
theorem Plays.silent {Entry Exit : σ → X → Prop} [Inhabited ℓ] (hmine : M.mine default)
    (hstep : ∀ s x l, Entry s x → M.mine l →
      ∃ s', M.step s l = some s' ∧ M.seen s' = M.seen s ∧ Exit s' x) :
    M.Plays Entry Exit Skip := by
  refine .step (fun s x l hentry hl => ?_) fun s x t r hentry hr => ?_
  · obtain ⟨s', hs', hseen, hexit⟩ := hstep s x l hentry hl
    exact ⟨s', [], .ok x, hs', .skip, by rw [hseen, List.append_nil], hexit⟩
  · cases hr
    obtain ⟨s', hs', hseen, hexit⟩ := hstep s x default hentry hmine
    exact ⟨default, s', hmine, hs', by rw [hseen, List.append_nil], hexit⟩

/-- **One step, and then `S`**: a step after which `S` is played is a step of what `S`
comes to behind it. -/
theorem Plays.sound_after {Mid : σ → X → Prop} {Exit : σ → Y → Prop} {S : Behaviour X E ε Y}
    (hS : M.Plays Mid Exit S) {labels : ℕ → ℓ} (hmine : ∀ i, M.mine (labels i))
    (hstep : M.step s (labels 0) = some s') (hseen : M.seen s' = M.seen s ++ t) {x : X}
    (hmid : Mid s' x) :
    ∃ n s'' t' r, run M.step s ((List.range n).map labels) = some s'' ∧ S x t' r ∧
      M.Ended s s'' (t ++ t') Exit r := by
  obtain ⟨n, s'', t', r, hrun, hr, hended⟩ :=
    hS.sound s' x (fun i => labels (1 + i)) hmid fun i => hmine (1 + i)
  exact ⟨1 + n, s'', t', r, run_labels_add (run_labels_one hstep) hrun, hr, hended.after hseen⟩

theorem Plays.complete_after {Mid : σ → X → Prop} {Exit : σ → Y → Prop}
    {S : Behaviour X E ε Y} (hS : M.Plays Mid Exit S) {l : ℓ} (hl : M.mine l)
    (hstep : M.step s l = some s') (hseen : M.seen s' = M.seen s ++ t) {x : X}
    (hmid : Mid s' x) {r : Except ε Y} (hr : S x t' r) :
    ∃ labels s'', (∀ l ∈ labels, M.mine l) ∧ run M.step s labels = some s'' ∧
      M.Ended s s'' (t ++ t') Exit r := by
  obtain ⟨labels, s'', hmine, hrun, hended⟩ := hS.complete s' x t' r hmid hr
  refine ⟨l :: labels, s'', List.forall_mem_cons.mpr ⟨hl, hmine⟩, ?_, hended.after hseen⟩
  rw [run_cons, hstep]
  exact hrun

/-- A place that is left without a step. -/
theorem Plays.here {Entry : σ → X → Prop} {Exit : σ → Y → Prop} {R : Behaviour X E ε Y}
    (hsound : ∀ s x, Entry s x → ∃ y, R x [] (.ok y) ∧ Exit s y)
    (hcomplete : ∀ s x t r, Entry s x → R x t r → ∃ y, t = [] ∧ r = .ok y ∧ Exit s y) :
    M.Plays Entry Exit R where
  sound s x labels hentry _ := by
    obtain ⟨y, hR, hexit⟩ := hsound s x hentry
    exact ⟨0, s, [], .ok y, rfl, hR, (List.append_nil _).symm, hexit⟩
  complete s x t r hentry hR := by
    obtain ⟨y, rfl, rfl, hexit⟩ := hcomplete s x t r hentry hR
    exact ⟨[], s, by simp, rfl, (List.append_nil _).symm, hexit⟩

/-- **One behind the other.** The places in between are described once, as the exit of the first
part and the entry of the second. -/
theorem Plays.seq {R : Behaviour X E ε Y} {S : Behaviour Y E ε Z} (hR : M.Plays Entry Mid R)
    (hS : M.Plays Mid Exit S) : M.Plays Entry Exit (Seq R S) where
  sound s x labels hentry hmine := by
    obtain ⟨n, s', t, r, hrun, hr, hseen, hended⟩ := hR.sound s x labels hentry hmine
    cases r with
    | error u => exact ⟨n, s', t, .error u, hrun, .stop hr, hseen, hended⟩
    | ok y =>
        obtain ⟨m, s'', t', r', hrun', hr', hended'⟩ :=
          hS.sound s' y (fun i => labels (n + i)) hended fun i => hmine (n + i)
        exact ⟨n + m, s'', t ++ t', r', run_labels_add hrun hrun', .go hr hr',
          hended'.after hseen⟩
  complete s x t r hentry h := by
    cases h with
    | stop h =>
        obtain ⟨labels, s', hmine, hrun, hended⟩ := hR.complete s x t _ hentry h
        exact ⟨labels, s', hmine, hrun, hended⟩
    | go h h' =>
        obtain ⟨labels, s', hmine, hrun, hseen, hmid⟩ := hR.complete s x _ _ hentry h
        obtain ⟨labels', s'', hmine', hrun', hended⟩ := hS.complete s' _ _ _ hmid h'
        exact ⟨labels ++ labels', s'', List.forall_mem_append.mpr ⟨hmine, hmine'⟩,
          (run_append_eq_some _).mpr ⟨s', hrun, hrun'⟩, hended.after hseen⟩

/-- **A loop** that is over. -/
theorem Plays.each_nil {R : α → Behaviour X E ε X} {At : σ → X → Prop} :
    M.Plays At At (Each R []) := by
  refine .here (fun s x h => ⟨x, .nil, h⟩) fun s x t r h hr => ?_
  obtain ⟨rfl, rfl⟩ := each_nil_iff.mp hr
  exact ⟨x, rfl, rfl, h⟩

/-- The places may be described otherwise, and so may the behaviour. -/
theorem Plays.congr {Entry Entry' : σ → X → Prop} {Exit Exit' : σ → Y → Prop}
    {R R' : Behaviour X E ε Y} (h : M.Plays Entry Exit R)
    (hentry : ∀ s x, Entry' s x → Entry s x) (hexit : ∀ s y, Exit s y → Exit' s y)
    (hR : ∀ s x t r, Entry' s x → (R x t r ↔ R' x t r)) : M.Plays Entry' Exit' R' where
  sound s x labels hs hmine := by
    obtain ⟨n, s', t, r, hrun, hr, hseen, hended⟩ := h.sound s x labels (hentry s x hs) hmine
    refine ⟨n, s', t, r, hrun, (hR s x t r hs).mp hr, hseen, ?_⟩
    cases r with
    | ok y => exact hexit s' y hended
    | error u => exact hended
  complete s x t r hs hr := by
    obtain ⟨labels, s', hmine, hrun, hseen, hended⟩ :=
      h.complete s x t r (hentry s x hs) ((hR s x t r hs).mpr hr)
    refine ⟨labels, s', hmine, hrun, hseen, ?_⟩
    cases r with
    | ok y => exact hexit s' y hended
    | error u => exact hended

/-- **A loop** whose body is played first. -/
theorem Plays.each_cons {R : α → Behaviour X E ε X} {a : α} {l : List α}
    {Entry Mid Exit : σ → X → Prop} (ha : M.Plays Entry Mid (R a))
    (hl : M.Plays Mid Exit (Each R l)) : M.Plays Entry Exit (Each R (a :: l)) :=
  (ha.seq hl).congr (fun _ _ h => h) (fun _ _ h => h) fun _ _ _ _ _ => each_cons_iff.symm

/-! ### As a part of a larger machine -/

section Lift

variable {σ' : Type u} {ℓ' : Type v} {W : Machine σ' ℓ' E ε} {part : σ' → σ} {name : ℓ' → ℓ}
  {I : σ' → Prop}

end Lift

/-! ### In a run of the whole system -/

section Undisturbed

/-- The party can do nothing. -/
def Idle (M : Machine σ ℓ E ε) (s : σ) : Prop := ∀ l, M.mine l → M.step s l = none

/-- Nobody else moves while the party can. -/
def Undisturbed (M : Machine σ ℓ E ε) (s : σ) (l : ℓ) : Prop := M.mine l ∨ M.Idle s

/-- The labels of an undisturbed run, as far as the party can move. -/
theorem run_undisturbed [Inhabited ℓ] (hmine : M.mine default) {ls : List ℓ}
    (hrun : run M.step s ls = some s') (hmeets : Meets M.step M.Undisturbed s ls)
    (hidle : M.Idle s') :
    ∃ labels : ℕ → ℓ, (∀ i, M.mine (labels i)) ∧
      ∀ n s₁, run M.step s ((List.range n).map labels) = some s₁ →
        ∃ post, ls = (List.range n).map labels ++ post := by
  induction ls generalizing s with
  | nil =>
      cases hrun
      refine ⟨fun _ => default, fun _ => hmine, fun n s₁ hn => ?_⟩
      cases n with
      | zero => exact ⟨[], rfl⟩
      | succ n =>
          rw [List.range_succ_eq_map, List.map_cons, run_cons, hidle _ hmine] at hn
          cases hn
  | cons l ls ih =>
      obtain ⟨u, hu, hrun'⟩ := (run_cons_eq_some M.step).mp hrun
      rcases hmeets.1 with hl | hstuck
      · obtain ⟨labels, hlabels, hfollows⟩ := ih hrun' (hmeets.2 u hu)
        refine ⟨fun i => i.casesOn l labels, fun i => ?_, fun n s₁ hn => ?_⟩
        · cases i with
          | zero => exact hl
          | succ i => exact hlabels i
        · cases n with
          | zero => exact ⟨l :: ls, rfl⟩
          | succ n =>
              rw [List.range_succ_eq_map, List.map_cons, List.map_map] at hn ⊢
              obtain ⟨u', hu', hn'⟩ := (run_cons_eq_some M.step).mp hn
              obtain rfl := Option.some.inj (hu.symm.trans hu')
              obtain ⟨post, rfl⟩ := hfollows n s₁ hn'
              exact ⟨post, rfl⟩
      · refine ⟨fun _ => default, fun _ => hmine, fun n s₁ hn => ?_⟩
        cases n with
        | zero => exact ⟨l :: ls, rfl⟩
        | succ n =>
            rw [List.range_succ_eq_map, List.map_cons, run_cons, hstuck _ hmine] at hn
            cases hn

/-- **An undisturbed run** begins with a run of the party alone, in a way `R` allows.  The others
may move behind it, or when the party has come to its end. -/
theorem Plays.undisturbed [Inhabited ℓ] {Entry : σ → X → Prop} {Exit : σ → Y → Prop}
    {R : Behaviour X E ε Y} (h : M.Plays Entry Exit R) (hmine : M.mine default) {x : X}
    (hentry : Entry s x) {ls : List ℓ} (hrun : run M.step s ls = some s')
    (hmeets : Meets M.step M.Undisturbed s ls) (hidle : M.Idle s') :
    ∃ pre post s₁ t r, ls = pre ++ post ∧ (∀ l ∈ pre, M.mine l) ∧
      run M.step s pre = some s₁ ∧ R x t r ∧ M.Ended s s₁ t Exit r := by
  obtain ⟨labels, hlabels, hfollows⟩ := run_undisturbed hmine hrun hmeets hidle
  obtain ⟨n, s₁, t, r, hn, hR, hended⟩ := h.sound s x labels hentry hlabels
  obtain ⟨post, hls⟩ := hfollows n s₁ hn
  refine ⟨_, post, s₁, t, r, hls, ?_, hn, hR, hended⟩
  intro l hl
  obtain ⟨i, -, rfl⟩ := List.mem_map.mp hl
  exact hlabels i

end Undisturbed

end Machine
