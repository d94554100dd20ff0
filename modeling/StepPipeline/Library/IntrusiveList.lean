import Mathlib.Data.List.Basic
import Mathlib.Data.List.Infix
import Mathlib.Data.List.Nodup
import Mathlib.Data.Finset.Card

/-!
# Intrusive singly linked lists

A list threaded through the link fields of the cells it contains: the cells are
addresses of an arbitrary type, `Links` reads the link field of each of them,
and a `Header` keeps the first and the last cell.

* `Path` and `Holds` — which sequence of cells a header holds;
* `Ops` — the operations of an implementation, each with its contract: which
  sequence the header holds afterwards, and that no other link field is
  written.  `Ops.reference` is the textbook implementation;
* `Header.takeHead` — the header after its first cell has been taken off;
* `Ends` and `toGo` — links that come to an end from every cell, and the number of
  cells up to there, at most that of a set the links stay in (`toGo_le_card`);
* `readList` — the cells in traversal order, read with a bound on their number;
* `Cursor` — **a traversal that has prefetched its successor** over a list that
  other parties extend meanwhile: what it has passed, what it still owes.

The list of a `Cursor` may grow at any place, the prefetched successor may
become stale, and still nothing owed is lost and nothing is passed twice
(`Cursor.grow`, `Cursor.pass`).

## Why operations are a structure

A client should rely on what an insertion promises and not on how it is done.  `Ops` packages the
functions with their contracts, so that a client is parametric in the implementation, and
`Ops.reference` shows that the contracts can be met.  `Places` is the whole contract: the header
holds the new sequence, and only cells of that sequence were written.  The frame half is what a
client needs when several lists share one map of links.

## Cells outside of lists

Links are a total map, so a cell that is in no list has a link as well, possibly into a list.
Results about a single list do not care; `Ends` is for those that follow links from wherever a
pointer was left.
-/

namespace IntrusiveList

universe u

variable {α : Type u}

/-- The link field of every cell. -/
abbrev Links (α : Type u) := α → Option α

/-- The list header: the first and the last cell, if any. -/
structure Header (α : Type u) where
  head : Option α
  tail : Option α
  deriving DecidableEq

/-- The header of the empty list. -/
def Header.empty : Header α := ⟨none, none⟩

/-- Following the links from `start` passes exactly the cells of `l` and then ends.  It speaks of
links only, so a path may begin in the middle of a list or outside of any. -/
def Path (next : Links α) : Option α → List α → Prop
  | start, [] => start = none
  | start, x :: l => start = some x ∧ Path next (next x) l

/-- The header holds the sequence `l`.  The last cell is part of it, as appending relies on the
header to know it. -/
structure Holds (next : Links α) (h : Header α) (l : List α) : Prop where
  path : Path next h.head l
  tail : h.tail = l.getLast?
  nodup : l.Nodup

/-! ### Paths -/

section Path

variable {next next' : Links α} {start : Option α} {l l₁ l₂ : List α} {x : α}

theorem Path.start_eq : Path next start l → start = l.head? := by
  cases l with
  | nil => exact id
  | cons y l => exact And.left

/-- A path is determined by the link fields of its own cells. -/
theorem Path.congr (h : Path next start l) (hlinks : ∀ y ∈ l, next' y = next y) :
    Path next' start l := by
  induction l generalizing start with
  | nil => exact h
  | cons y l ih =>
      refine ⟨h.1, ?_⟩
      rw [hlinks y List.mem_cons_self]
      exact ih h.2 fun z hz => hlinks z (List.mem_cons_of_mem y hz)

theorem path_append :
    Path next start (l₁ ++ x :: l₂) → Path next (next x) l₂ := by
  induction l₁ generalizing start with
  | nil => exact And.right
  | cons y l₁ ih => exact fun h => ih h.2

/-- The link field of a cell in a list is the cell after it. -/
theorem Path.next_eq (h : Path next start (l₁ ++ x :: l₂)) : next x = l₂.head? :=
  (path_append h).start_eq

/-- Splicing a new segment after a cell whose link field leads to it. -/
theorem path_splice {m : List α} (h : Path next start (l₁ ++ x :: l₂))
    (hsame : ∀ y ∈ l₁, next' y = next y) (hm : Path next' (next' x) m) :
    Path next' start (l₁ ++ x :: m) := by
  induction l₁ generalizing start with
  | nil => exact ⟨h.1, hm⟩
  | cons y l₁ ih =>
      refine ⟨h.1, ?_⟩
      rw [hsame y List.mem_cons_self]
      exact ih h.2 fun z hz => hsame z (List.mem_cons_of_mem y hz)

/-- Two paths from one cell are the same. -/
theorem Path.unique (h₁ : Path next start l₁) (h₂ : Path next start l₂) : l₁ = l₂ := by
  induction l₁ generalizing start l₂ with
  | nil =>
      obtain rfl : start = none := h₁
      cases l₂ with
      | nil => rfl
      | cons y l₂ => cases h₂.1
  | cons x l₁ ih =>
      obtain ⟨rfl, hrest⟩ := h₁
      cases l₂ with
      | nil => cases h₂
      | cons y l₂ =>
          obtain ⟨heq, hrest'⟩ := h₂
          obtain rfl := Option.some.inj heq
          rw [ih hrest hrest']

end Path

/-! ### Links that come to an end -/

/-- Following the links from any cell comes to an end.  A single list without a cycle does not
give this; it is an assumption about all cells, which insertions and cuts keep. -/
def Ends (next : Links α) : Prop := ∀ start, ∃ l, Path next start l

open Classical in
/-- The number of cells from `start` on. -/
noncomputable def toGo (next : Links α) (start : Option α) : ℕ :=
  if h : ∃ l, Path next start l then h.choose.length else 0

section Ends

variable {next next' : Links α}

theorem toGo_eq {start : Option α} {l : List α} (h : Path next start l) :
    toGo next start = l.length := by
  have hex : ∃ l, Path next start l := ⟨l, h⟩
  rw [toGo, dif_pos hex, hex.choose_spec.unique h]

/-- Every cell is one cell more to go than its successor. -/
theorem Ends.toGo_some (h : Ends next) (x : α) : toGo next (some x) = toGo next (next x) + 1 := by
  obtain ⟨l, hl⟩ := h (next x)
  rw [toGo_eq hl, toGo_eq (l := x :: l) ⟨rfl, hl⟩, List.length_cons]

/-- A path that comes to an end passes no cell twice. -/
theorem Path.nodup {start : Option α} {l : List α} (h : Path next start l) : l.Nodup := by
  induction l generalizing start with
  | nil => exact List.nodup_nil
  | cons x l ih =>
      refine List.nodup_cons.mpr ⟨fun hx => ?_, ih h.2⟩
      obtain ⟨l₁, l₂, rfl⟩ := List.append_of_mem hx
      have heq : l₁ ++ x :: l₂ = l₂ := h.2.unique (path_append h.2)
      have hlength := congrArg List.length heq
      rw [List.length_append, List.length_cons] at hlength
      omega

/-- **Links within a finite set of cells** come to an end within it. -/
theorem toGo_le_card {start : Option α} (cells : Finset α)
    (hlinks : ∀ x y, next x = some y → y ∈ cells) (hstart : ∀ x, start = some x → x ∈ cells) :
    toGo next start ≤ cells.card := by
  by_cases hex : ∃ l, Path next start l
  · obtain ⟨l, hl⟩ := hex
    have hmem : ∀ {l : List α} {start : Option α}, Path next start l →
        (∀ x, start = some x → x ∈ cells) → ∀ y ∈ l, y ∈ cells := by
      intro l
      induction l with
      | nil => exact fun _ _ y hy => by cases hy
      | cons x l ih =>
          intro start hl hstart y hy
          rcases List.mem_cons.mp hy with rfl | hy
          · exact hstart y hl.1
          · exact ih hl.2 (hlinks x) y hy
    classical
    rw [toGo_eq hl, ← List.toFinset_card_of_nodup hl.nodup]
    exact Finset.card_le_card fun y hy => hmem hl hstart y (List.mem_toFinset.mp hy)
  · rw [toGo, dif_neg hex]
    exact Nat.zero_le _

/-- Links of which some are cut still come to an end. -/
theorem Ends.of_cut (h : Ends next) (hcut : ∀ x, next' x = next x ∨ next' x = none) :
    Ends next' := by
  intro start
  obtain ⟨l, hl⟩ := h start
  induction l generalizing start with
  | nil => exact ⟨[], hl⟩
  | cons x l ih =>
      obtain ⟨rfl, hrest⟩ := hl
      rcases hcut x with hsame | hnone
      · obtain ⟨l', hl'⟩ := ih (next x) hrest
        exact ⟨x :: l', rfl, hsame ▸ hl'⟩
      · exact ⟨[x], rfl, hnone⟩

end Ends

/-! ### Headers -/

section Holds

variable {next next' : Links α} {h : Header α} {l : List α} {x : α}

theorem holds_empty (next : Links α) : Holds next Header.empty [] :=
  ⟨rfl, rfl, List.nodup_nil⟩

theorem Holds.head_eq (hl : Holds next h l) : h.head = l.head? := hl.path.start_eq

/-- Writing link fields outside a list does not change what its header holds. -/
theorem Holds.congr (hl : Holds next h l) (hlinks : ∀ y ∈ l, next' y = next y) :
    Holds next' h l :=
  ⟨hl.path.congr hlinks, hl.tail, hl.nodup⟩

/-- The link field of a cell of the list is its successor in the list. -/
theorem Holds.next_eq {l₁ l₂ : List α} (hl : Holds next h (l₁ ++ x :: l₂)) :
    next x = l₂.head? :=
  hl.path.next_eq

/-- A link from a cell of a list leads to a cell of that list. -/
theorem Holds.mem_of_next {y : α} (hl : Holds next h l) (hx : x ∈ l)
    (hlink : next x = some y) : y ∈ l := by
  obtain ⟨l₁, l₂, rfl⟩ := List.append_of_mem hx
  rw [hl.next_eq] at hlink
  exact List.mem_append_right l₁ (List.mem_cons_of_mem x (List.mem_of_mem_head? hlink))

end Holds

/-! ### Operations -/

/-- What every insertion of a cell promises: the header holds the given
sequence, and only link fields of cells of that sequence were written. -/
structure Places (next : Links α) (r : Links α × Header α) (l : List α) : Prop where
  holds : Holds r.1 r.2 l
  frame : ∀ y, y ∉ l → r.1 y = next y

/-- **An implementation of intrusive lists**, with the contracts a client may
rely on.  The contracts speak only of well-formed lists and of cells that are
not in the list yet. -/
structure Ops (α : Type u) where
  prepend : Links α → Header α → α → Links α × Header α
  /-- `insert next h prev node` links `node` in after `prev`. -/
  insert : Links α → Header α → α → α → Links α × Header α
  append : Links α → Header α → α → Links α × Header α
  prepend_places : ∀ {next : Links α} {h : Header α} {l : List α} {x : α},
    Holds next h l → x ∉ l → Places next (prepend next h x) (x :: l)
  insert_places : ∀ {next : Links α} {h : Header α} {l₁ l₂ : List α} {p x : α},
    Holds next h (l₁ ++ p :: l₂) → x ∉ l₁ ++ p :: l₂ →
      Places next (insert next h p x) (l₁ ++ p :: x :: l₂)
  append_places : ∀ {next : Links α} {h : Header α} {l : List α} {x : α},
    Holds next h l → x ∉ l → Places next (append next h x) (l ++ [x])

/-- **Links keep coming to an end** when a cell is inserted: they are what they were
up to the first cell of the list, and from there on those of the list. -/
theorem Places.ends {next : Links α} {r : Links α × Header α} {l : List α}
    (h : Places next r l) (hends : Ends next) : Ends r.1 := by
  intro start
  obtain ⟨m, hm⟩ := hends start
  induction m generalizing start with
  | nil => exact ⟨[], hm⟩
  | cons x m ih =>
      obtain ⟨rfl, hrest⟩ := hm
      by_cases hx : x ∈ l
      · obtain ⟨l₁, l₂, rfl⟩ := List.append_of_mem hx
        exact ⟨x :: l₂, rfl, path_append h.holds.path⟩
      · obtain ⟨m', hm'⟩ := ih (next x) hrest
        exact ⟨x :: m', rfl, (h.frame x hx).symm ▸ hm'⟩

/-- The links lead to cells they led to before, and to cells of the list. -/
theorem Places.forall_link {next : Links α} {r : Links α × Header α} {l : List α}
    (h : Places next r l) {Q : α → Prop} (hlinks : ∀ x y, next x = some y → Q y)
    (hl : ∀ y ∈ l, Q y) : ∀ x y, r.1 x = some y → Q y := by
  intro x y hxy
  by_cases hx : x ∈ l
  · exact hl y (h.holds.mem_of_next hx hxy)
  · rw [h.frame x hx] at hxy
    exact hlinks x y hxy

namespace Reference

variable [DecidableEq α] {next : Links α} {h : Header α} {l l₁ l₂ : List α} {p x : α}

/-- Link `x` in front of the first cell. -/
def prepend (next : Links α) (h : Header α) (x : α) : Links α × Header α :=
  (Function.update next x h.head,
    ⟨some x, match h.tail with | none => some x | some t => some t⟩)

/-- Link `x` in behind the last cell. -/
def append (next : Links α) (h : Header α) (x : α) : Links α × Header α :=
  match h.tail with
  | none => (Function.update next x none, ⟨some x, some x⟩)
  | some t =>
      (Function.update (Function.update next x none) t (some x), ⟨h.head, some x⟩)

/-- Link `x` in behind `p`; behind the last cell this is `append`. -/
def insert (next : Links α) (h : Header α) (p x : α) : Links α × Header α :=
  match next p with
  | none => append next h x
  | some q => (Function.update (Function.update next x (some q)) p (some x), h)

theorem prepend_places (hl : Holds next h l) (hx : x ∉ l) :
    Places next (prepend next h x) (x :: l) where
  holds :=
    { path := by
        refine ⟨rfl, ?_⟩
        simp only [prepend, Function.update_self]
        refine hl.path.congr fun y hy => ?_
        have hyx : y ≠ x := fun heq => hx (heq ▸ hy)
        exact Function.update_of_ne hyx _ _
      tail := by
        simp only [prepend, hl.tail]
        cases l with
        | nil => rfl
        | cons y l => simp [List.getLast?_cons]
      nodup := List.nodup_cons.mpr ⟨hx, hl.nodup⟩ }
  frame y hy := by
    have hyx : y ≠ x := fun heq => hy (heq ▸ List.mem_cons_self)
    exact Function.update_of_ne hyx _ _

theorem append_places (hl : Holds next h l) (hx : x ∉ l) :
    Places next (append next h x) (l ++ [x]) := by
  have hnodup : (l ++ [x]).Nodup := by
    simpa [List.nodup_append, hl.nodup] using fun a ha (heq : a = x) => hx (heq ▸ ha)
  rcases List.eq_nil_or_concat l with rfl | ⟨l₀, t, rfl⟩
  · have htail : h.tail = none := hl.tail
    refine ⟨⟨?_, by simp [append, htail], hnodup⟩, fun y hy => ?_⟩
    · simp [append, htail, Path]
    · have hne : y ≠ x := by simpa using hy
      simp [append, htail, hne]
  · rw [List.concat_eq_append] at *
    have htail : h.tail = some t := by simpa using hl.tail
    have hxt : x ≠ t := fun heq => hx (by simp [heq])
    refine ⟨⟨?_, by simp [append, htail], hnodup⟩, fun y hy => ?_⟩
    · simp only [append, htail, List.append_assoc, List.singleton_append]
      refine path_splice hl.path (fun y hy => ?_) ?_
      · have hyt : y ≠ t := by
          rintro rfl
          have := List.nodup_append.mp hl.nodup
          exact this.2.2 y hy y (by simp) rfl
        have hyx : y ≠ x := fun heq => hx (by simp [← heq, hy])
        rw [Function.update_of_ne hyt, Function.update_of_ne hyx]
      · rw [Function.update_self]
        refine ⟨rfl, ?_⟩
        rw [Function.update_of_ne hxt, Function.update_self]
        rfl
    · have hyt : y ≠ t := fun heq => hy (by simp [heq])
      have hyx : y ≠ x := fun heq => hy (by simp [heq])
      simp [append, htail, hyt, hyx]

theorem insert_places (hl : Holds next h (l₁ ++ p :: l₂)) (hx : x ∉ l₁ ++ p :: l₂) :
    Places next (insert next h p x) (l₁ ++ p :: x :: l₂) := by
  have hnext : next p = l₂.head? := hl.next_eq
  cases l₂ with
  | nil =>
      -- behind the last cell: an append
      have happ := append_places hl hx
      simpa [insert, hnext] using happ
  | cons q l₂ =>
      have hp : p ∈ l₁ ++ p :: q :: l₂ := by simp
      have hxp : x ≠ p := fun heq => hx (heq ▸ hp)
      have hdisj := (List.nodup_append.mp hl.nodup)
      have hnodup : (l₁ ++ p :: x :: q :: l₂).Nodup := by
        have hperm : (l₁ ++ p :: x :: q :: l₂).Perm (x :: (l₁ ++ p :: q :: l₂)) := by
          simpa using @List.perm_middle _ x (l₁ ++ [p]) (q :: l₂)
        exact hperm.nodup_iff.mpr (List.nodup_cons.mpr ⟨hx, hl.nodup⟩)
      refine ⟨⟨?_, ?_, hnodup⟩, fun y hy => ?_⟩
      · -- up to `p` the path is the old one, from `x` on it follows the old link of `p`
        simp only [insert, hnext, List.head?_cons]
        refine path_splice hl.path (fun y hy => ?_) ?_
        · have hyp : y ≠ p := fun heq => hdisj.2.2 y hy p (by simp) heq
          have hyx : y ≠ x := fun heq => hx (by simp [← heq, hy])
          rw [Function.update_of_ne hyp, Function.update_of_ne hyx]
        · rw [Function.update_self]
          refine ⟨rfl, ?_⟩
          rw [Function.update_of_ne hxp, Function.update_self]
          have hrest : Path next (some q) (q :: l₂) := by
            have := path_append hl.path
            rwa [hnext] at this
          refine hrest.congr fun y hy => ?_
          have hyp : y ≠ p := by
            rintro rfl
            exact (List.nodup_cons.mp hdisj.2.1).1 hy
          have hyx : y ≠ x := by
            rintro rfl
            exact hx (List.mem_append_right l₁ (List.mem_cons_of_mem p hy))
          rw [Function.update_of_ne hyp, Function.update_of_ne hyx]
      · simp only [insert, hnext, List.head?_cons, hl.tail]
        simp [List.getLast?_append, List.getLast?_cons]
      · have hyp : y ≠ p := fun heq => hy (by simp [heq])
        have hyx : y ≠ x := fun heq => hy (by simp [heq])
        simp [insert, hnext, hyp, hyx]

end Reference

/-- The textbook implementation. -/
def Ops.reference [DecidableEq α] : Ops α where
  prepend := Reference.prepend
  insert := Reference.insert
  append := Reference.append
  prepend_places := Reference.prepend_places
  insert_places := Reference.insert_places
  append_places := Reference.append_places

/-! ### Taking the first cell off -/

/-- The header without its first cell `x`: the next one comes first, and when the list
runs empty the last one goes with it. -/
def Header.takeHead [DecidableEq α] (next : Links α) (h : Header α) (x : α) : Header α :=
  ⟨next x, if h.tail = some x then next x else h.tail⟩

/-- **Taking the first cell off** leaves the rest of the list. -/
theorem Holds.takeHead [DecidableEq α] {next : Links α} {h : Header α} {l : List α} {x : α}
    (hl : Holds next h (x :: l)) : Holds next (h.takeHead next x) l := by
  obtain ⟨hx, hnodup⟩ := List.nodup_cons.mp hl.nodup
  refine ⟨hl.path.2, ?_, hnodup⟩
  rw [Header.takeHead, hl.tail]
  cases l with
  | nil =>
      have hlast : next x = none := hl.path.2
      simpa using hlast
  | cons y l =>
      have hne : (y :: l).getLast? ≠ some x := fun heq => hx (List.mem_of_getLast? heq)
      rw [List.getLast?_cons_cons, if_neg hne]

/-! ### Reading a list -/

/-- The cells in traversal order, at most `fuel` of them. -/
def readList (next : Links α) : ℕ → Option α → List α
  | 0, _ => []
  | _ + 1, none => []
  | fuel + 1, some x => x :: readList next fuel (next x)

/-- Any bound on the length is enough fuel. -/
theorem readList_eq {next : Links α} {start : Option α} {l : List α} {fuel : ℕ}
    (h : Path next start l) (hfuel : l.length ≤ fuel) :
    readList next fuel start = l := by
  induction l generalizing start fuel with
  | nil =>
      obtain rfl : start = none := h
      cases fuel <;> rfl
  | cons x l ih =>
      obtain ⟨rfl, hrest⟩ := h
      cases fuel with
      | zero => simp at hfuel
      | succ fuel =>
          rw [readList, ih hrest (by simpa using hfuel)]

/-! ### Traversal with a prefetched successor -/

/-- **The state of a traversal** of the list `l`: it has passed the cells of `seen`, will go on at
`next`, and owes a visit to the cells of `owed` that it has not passed.  All of this is about the
list as it is now, not as it was when the traversal began. -/
def Cursor (l seen : List α) (next : Option α) (owed : List α) : Prop :=
  match next with
  | none => seen.Sublist l ∧ ∀ x ∈ owed, x ∈ seen
  | some q => ∃ l₁ l₂, l = l₁ ++ q :: l₂ ∧ seen.Sublist l₁ ∧
      ∀ x ∈ owed, x ∈ seen ∨ x ∈ q :: l₂

/-- `l'` is `l` with the cell `x` linked in somewhere. -/
def Extends (l : List α) (x : α) (l' : List α) : Prop :=
  ∃ a b, l = a ++ b ∧ l' = a ++ x :: b

theorem Extends.mem_iff {l l' : List α} {x y : α} (h : Extends l x l') :
    y ∈ l' ↔ y = x ∨ y ∈ l := by
  obtain ⟨a, b, rfl, rfl⟩ := h
  simp only [List.mem_append, List.mem_cons]
  tauto

theorem Extends.sublist {l l' : List α} {x : α} (h : Extends l x l') :
    l.Sublist l' := by
  obtain ⟨a, b, rfl, rfl⟩ := h
  exact (List.Sublist.refl a).append (List.sublist_cons_self x b)

namespace Cursor

variable {l l' seen owed : List α} {next : Option α} {x q : α}

/-- A traversal starts at the head of the list and owes all of it. -/
theorem start (howed : ∀ x ∈ owed, x ∈ l) : Cursor l [] l.head? owed := by
  cases l with
  | nil => exact ⟨List.nil_sublist _, howed⟩
  | cons y l => exact ⟨[], l, rfl, List.nil_sublist _, fun x hx => Or.inr (howed x hx)⟩

/-- What a traversal has passed is a subsequence of the list it runs over. -/
theorem sublist (h : Cursor l seen next owed) : seen.Sublist l := by
  cases next with
  | none => exact h.1
  | some q =>
      obtain ⟨l₁, l₂, rfl, hsub, -⟩ := h
      exact hsub.trans (List.sublist_append_left l₁ _)

/-- Passing a cell: the traversal goes on at the successor it reads there. -/
theorem pass {links : Links α} {hd : Header α} (hl : Holds links hd l)
    (h : Cursor l seen (some q) owed) :
    Cursor l (seen ++ [q]) (links q) owed := by
  obtain ⟨l₁, l₂, rfl, hsub, howed⟩ := h
  rw [hl.next_eq]
  have hseen : (seen ++ [q]).Sublist (l₁ ++ [q]) := hsub.append (List.Sublist.refl _)
  cases l₂ with
  | nil =>
      refine ⟨hseen, fun x hx => ?_⟩
      simpa using howed x hx
  | cons r l₂ =>
      refine ⟨l₁ ++ [q], l₂, by simp, hseen, fun x hx => ?_⟩
      have := howed x hx
      simp only [List.mem_append, List.mem_cons, List.not_mem_nil, or_false] at this ⊢
      tauto

/-- **Growth of the list does not disturb a traversal**, wherever the new cell
is linked in. -/
theorem grow (hext : Extends l x l') (h : Cursor l seen next owed) :
    Cursor l' seen next owed := by
  cases next with
  | none => exact ⟨h.1.trans hext.sublist, h.2⟩
  | some q =>
      obtain ⟨l₁, l₂, rfl, hsub, howed⟩ := h
      obtain ⟨a, b, hab, rfl⟩ := hext
      rcases List.append_eq_append_iff.mp hab with ⟨c, rfl, hc⟩ | ⟨c, rfl, hc⟩
      · -- the new cell lies at or behind `q`, or right before it
        cases c with
        | nil =>
            obtain rfl : q :: l₂ = b := by simpa using hc
            exact ⟨l₁ ++ [x], l₂, by simp,
              hsub.trans (List.sublist_append_left l₁ [x]), howed⟩
        | cons r c =>
            obtain ⟨rfl, rfl⟩ : q = r ∧ l₂ = c ++ b := by simpa using hc
            refine ⟨l₁, c ++ x :: b, by simp, hsub, fun y hy => ?_⟩
            have := howed y hy
            simp only [List.mem_append, List.mem_cons] at this ⊢
            tauto
      · -- the new cell lies before `q`
        subst hc
        refine ⟨a ++ x :: c, l₂, by simp, hsub.trans ?_, howed⟩
        exact (List.Sublist.refl a).append (List.sublist_cons_self x c)

end Cursor

end IntrusiveList
