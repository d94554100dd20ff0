import StepPipeline.Kernel
import StepPipeline.Measurement
import Mathlib.Data.Int.Bitwise

/-!
# The filter engine

`step_filt_evaluate` walks a filter chain from left to right with one `int`
accumulator.  This file states what the header file documents a chain to mean —
a strictly left-associated Boolean expression over masked, bit-by-bit
comparisons — and proves that the walk computes it.

* `stepFiltEvaluateFilter`, `stepFiltEvaluate` — the code;
* `EntryHolds`, `chainMeaning` — the documented meaning;
* `stepFiltEvaluate_documented` — the two agree on every well-formed chain;
* `stepFiltEvaluate_congr` — the verdict is a function of the filter word alone.

## One accumulator

The C loop keeps a single `int` from entry to entry, and `step_filt_evaluate_filter` combines it
with the comparison of one entry.  Most operands use the logical operators of C on it, and XOR
compares the two values; AND uses the bitwise `&`, which agrees with `&&` only because both sides
are 0 or 1 by then.  The transcription keeps each operator as the source writes it, on integers,
and `stepFiltEvaluateFilter_later` is where the agreement is shown.

## What the chain has to be

The equation is about chains of the documented grammar: IS or NOT first, the other operands
behind.  The code looks at the first operand only; what it does with the chains it should have
refused is the matter of `FilterGrammar`.  That an entry stands for a comparison bit by bit, and
not for one of masked words, is part of what is documented (`ignore_mask`: "any bits set to 1 in
this mask field will be ignored"), so `EntryHolds` is stated over bits and `masked_eq_iff` says
that the masking does it.
-/

namespace StepPipeline

/-! ### The code -/

/-- `enum step_filter_op`.  The C object is an integer, so a value outside the enumeration can be
stored in it; the `switch` has no default branch, and what it does with such a value is the
constructor `undefined`. -/
inductive StepFilterOp where
  | is
  | not
  | and
  | andNot
  | or
  | orNot
  | xor
  | undefined (value : ℕ)
  deriving DecidableEq, Repr

/-- `struct step_filter`. -/
structure StepFilter where
  op : StepFilterOp
  matchBits : BitVec 32
  ignoreMask : BitVec 32
  deriving DecidableEq, Repr

/-- `struct step_filter_chain`: the number of entries and a pointer, possibly
NULL, to the array of them. -/
structure StepFilterChain where
  count : ℕ
  chain : Option (List StepFilter)
  deriving DecidableEq, Repr

/-- The catch-all chain, an initialiser that names neither member. -/
def StepFilterChain.catchAll : StepFilterChain := ⟨0, none⟩

/-- `step_filt_evaluate_filter`: the new value of `*match`, which the function sets to 0 on entry.
`prev` is the accumulator before the entry; the first entry of a chain gets 0 there, and its
operand does not look at it. -/
def stepFiltEvaluateFilter (f : StepFilter) (mes : StepMeasurement) (prev : ℤ) : ℤ :=
  let mesCmp :=
    if f.ignoreMask ≠ 0#32 then mes.header.filterBits &&& ~~~f.ignoreMask
    else mes.header.filterBits
  let fCmp :=
    if f.ignoreMask ≠ 0#32 then f.matchBits &&& ~~~f.ignoreMask else f.matchBits
  let currEval : ℤ := if mesCmp = fCmp then 1 else 0
  match f.op with
  | .is => if currEval ≠ 0 then 1 else 0
  | .not => if currEval ≠ 0 then 0 else 1
  -- the only operand written with the bitwise operator
  | .and => if Int.land currEval prev ≠ 0 then 1 else 0
  | .andNot => if prev ≠ 0 ∧ ¬currEval ≠ 0 then 1 else 0
  | .or => if prev ≠ 0 ∨ currEval ≠ 0 then 1 else 0
  | .orNot => if prev ≠ 0 ∨ ¬currEval ≠ 0 then 1 else 0
  | .xor => if prev ≠ currEval then 1 else 0
  -- no case of the switch: `*match` keeps the 0 it was set to on entry
  | .undefined _ => 0

/-- The loop of `step_filt_evaluate` over the `count` entries that are left.  The list is the
array the pointer leads to; where it is shorter than the count says, the loop reads past its end. -/
def stepFiltEvaluateLoop (mes : StepMeasurement) :
    ℕ → List StepFilter → ℤ → Except UndefinedBehaviour ℤ
  | 0, _, prevEval => .ok prevEval
  | _ + 1, [], _ => .error .outOfBounds
  | count + 1, f :: fs, prevEval =>
      stepFiltEvaluateLoop mes count fs (stepFiltEvaluateFilter f mes prevEval)

/-- `step_filt_evaluate`: the return code and the final `*match`.  The tests come in the order of
the source: no measurement, then the catch-all, then the first operand; each of the first two
answers before the chain is looked at. -/
def stepFiltEvaluate (fc : Option StepFilterChain) (mes : Option StepMeasurement) :
    Except UndefinedBehaviour (ℤ × ℤ) :=
  match mes with
  | none => .ok (negEinval, 0)
  | some mes =>
    match fc with
    | none => .ok (0, 1)
    | some fc =>
      if fc.count = 0 then .ok (0, 1)
      else
        match fc.chain with
        -- the code tests `fc`, not `fc->chain`, before it reads entry 0
        | none => .error .nullDeref
        | some [] => .error .outOfBounds
        | some (f :: fs) =>
          if f.op ≠ .is ∧ f.op ≠ .not then .ok (negEinval, 0)
          else
            (stepFiltEvaluateLoop mes fc.count (f :: fs) 0).map fun currEval =>
              (0, currEval)

/-! ### The documented meaning -/

/-- **An entry holds** of a filter word if the word equals the entry's match value in every bit
position its mask does not ignore.  Nothing is said of the match value under the mask: two entries
that differ there only are one entry. -/
def EntryHolds (f : StepFilter) (word : BitVec 32) : Prop :=
  ∀ i < 32, f.ignoreMask.getLsbD i = false →
    word.getLsbD i = f.matchBits.getLsbD i

instance decidableEntryHolds (f : StepFilter) (word : BitVec 32) :
    Decidable (EntryHolds f word) :=
  inferInstanceAs (Decidable (∀ i < 32, f.ignoreMask.getLsbD i = false →
    word.getLsbD i = f.matchBits.getLsbD i))

/-- The value of the first entry: IS takes its comparison, NOT negates it. -/
def StepFilterOp.initial : StepFilterOp → Bool → Bool
  | .not, curr => !curr
  | _, curr => curr

/-- The documented effect of a later operand on the value of the expression to its left.  IS and
NOT have no documented meaning there; the value they get here is never used, since `chainMeaning`
is compared with the code on documented chains only. -/
def StepFilterOp.combine : StepFilterOp → Bool → Bool → Bool
  | .and, prev, curr => prev && curr
  | .andNot, prev, curr => prev && !curr
  | .or, prev, curr => prev || curr
  | .orNot, prev, curr => prev || !curr
  | .xor, prev, curr => prev ^^ curr
  | _, prev, _ => prev

/-- The operands documented for the first entry of a chain. -/
def StepFilterOp.Initial (op : StepFilterOp) : Prop := op = .is ∨ op = .not

/-- The operands documented for the entries after the first. -/
def StepFilterOp.Later (op : StepFilterOp) : Prop :=
  op = .and ∨ op = .andNot ∨ op = .or ∨ op = .orNot ∨ op = .xor

/-- **The meaning of a chain**: the left-associated Boolean expression of its entries, the first
one `f`.  There is no precedence and there are no parentheses, as the header file says: each
operand takes the value of everything to its left. -/
def chainMeaning (word : BitVec 32) (f : StepFilter) (fs : List StepFilter) : Bool :=
  fs.foldl (fun prev g => g.op.combine prev (decide (EntryHolds g word)))
    (f.op.initial (decide (EntryHolds f word)))

/-! ### The walk computes the meaning -/

/-- A truth value as the `int` the code keeps. -/
def boolToInt (b : Bool) : ℤ := if b then 1 else 0

@[simp] theorem boolToInt_true : boolToInt true = 1 := rfl

@[simp] theorem boolToInt_false : boolToInt false = 0 := rfl

/-- The masked comparison is the bit-by-bit one; the branch that skips an empty
mask makes no difference. -/
theorem masked_eq_iff (f : StepFilter) (word : BitVec 32) :
    ((if f.ignoreMask ≠ 0#32 then word &&& ~~~f.ignoreMask else word) =
        if f.ignoreMask ≠ 0#32 then f.matchBits &&& ~~~f.ignoreMask else f.matchBits) ↔
      EntryHolds f word := by
  have hmask : ∀ x : BitVec 32,
      (if f.ignoreMask ≠ 0#32 then x &&& ~~~f.ignoreMask else x) = x &&& ~~~f.ignoreMask := by
    intro x
    by_cases h : f.ignoreMask = 0#32
    · rw [if_neg (not_not.mpr h), h, BitVec.not_zero, BitVec.and_allOnes]
    · rw [if_pos h]
  rw [hmask, hmask]
  constructor
  · intro heq i hi hbit
    have hbits := congrArg (BitVec.getLsbD · i) heq
    simpa only [BitVec.getLsbD_and, BitVec.getLsbD_not, hbit, hi, decide_true,
      Bool.not_false, Bool.and_true] using hbits
  · intro hholds
    refine BitVec.eq_of_getLsbD_eq fun i hi => ?_
    simp only [BitVec.getLsbD_and, BitVec.getLsbD_not]
    cases hbit : f.ignoreMask.getLsbD i with
    | false => rw [hholds i hi hbit]
    | true => simp

/-- The first entry, against the accumulator the loop starts from. -/
theorem stepFiltEvaluateFilter_initial {f : StepFilter} (hop : f.op.Initial)
    (mes : StepMeasurement) (prev : ℤ) :
    stepFiltEvaluateFilter f mes prev =
      boolToInt (f.op.initial (decide (EntryHolds f mes.header.filterBits))) := by
  simp only [stepFiltEvaluateFilter, masked_eq_iff]
  by_cases hholds : EntryHolds f mes.header.filterBits <;>
    rcases hop with hop | hop <;> simp [hop, hholds, StepFilterOp.initial]

/-- A later entry, against an accumulator that is 0 or 1.  That it is one of the two is the loop
invariant, in the form of the argument `boolToInt prev`: every branch of the `switch` writes 0 or
1, so it is kept. -/
theorem stepFiltEvaluateFilter_later {f : StepFilter} (hop : f.op.Later)
    (mes : StepMeasurement) (prev : Bool) :
    stepFiltEvaluateFilter f mes (boolToInt prev) =
      boolToInt (f.op.combine prev (decide (EntryHolds f mes.header.filterBits))) := by
  simp only [stepFiltEvaluateFilter, masked_eq_iff]
  have hcurr : (if EntryHolds f mes.header.filterBits then (1 : ℤ) else 0) =
      boolToInt (decide (EntryHolds f mes.header.filterBits)) := by
    by_cases hholds : EntryHolds f mes.header.filterBits <;> simp [hholds]
  rw [hcurr]
  generalize decide (EntryHolds f mes.header.filterBits) = curr
  rcases hop with hop | hop | hop | hop | hop <;>
    cases prev <;> cases curr <;> simp only [hop, StepFilterOp.combine] <;> rfl

/-- The loop over the later entries. -/
theorem stepFiltEvaluateLoop_later (mes : StepMeasurement) {fs : List StepFilter}
    (hlater : ∀ g ∈ fs, g.op.Later) (prev : Bool) :
    stepFiltEvaluateLoop mes fs.length fs (boolToInt prev) =
      .ok (boolToInt (fs.foldl (fun prev g =>
        g.op.combine prev (decide (EntryHolds g mes.header.filterBits))) prev)) := by
  induction fs generalizing prev with
  | nil => rfl
  | cons g gs ih =>
      rw [List.length_cons, stepFiltEvaluateLoop,
        stepFiltEvaluateFilter_later (hlater g List.mem_cons_self),
        ih fun e he => hlater e (List.mem_cons_of_mem g he)]
      rfl

/-- A well-formed chain evaluates to its meaning. -/
theorem stepFiltEvaluate_eq (mes : StepMeasurement) {f : StepFilter}
    {fs : List StepFilter} (hfirst : f.op.Initial) (hlater : ∀ g ∈ fs, g.op.Later) :
    stepFiltEvaluate (some ⟨fs.length + 1, some (f :: fs)⟩) (some mes) =
      .ok (0, boolToInt (chainMeaning mes.header.filterBits f fs)) := by
  have hop : ¬(f.op ≠ .is ∧ f.op ≠ .not) := by
    rcases hfirst with h | h <;> simp [h]
  simp only [stepFiltEvaluate, Nat.add_eq_zero_iff, one_ne_zero, and_false, if_false,
    if_neg hop, stepFiltEvaluateLoop, stepFiltEvaluateFilter_initial hfirst,
    stepFiltEvaluateLoop_later mes hlater]
  rfl

/-- The verdict and the return code depend on the measurement through its filter word only.  This
is what makes a cache of verdicts by filter word possible at all; a handler that looks at more is
where it ends (`CacheTransparency`). -/
theorem stepFiltEvaluate_congr (fc : Option StepFilterChain) {mes mes' : StepMeasurement}
    (h : mes.header.filterBits = mes'.header.filterBits) :
    stepFiltEvaluate fc (some mes) = stepFiltEvaluate fc (some mes') := by
  have hentry : ∀ f prev,
      stepFiltEvaluateFilter f mes prev = stepFiltEvaluateFilter f mes' prev := by
    intro f prev
    simp only [stepFiltEvaluateFilter, h]
  have hloop : ∀ count fs prev,
      stepFiltEvaluateLoop mes count fs prev = stepFiltEvaluateLoop mes' count fs prev := by
    intro count
    induction count with
    | zero => intro fs prev; rfl
    | succ count ih =>
        intro fs prev
        cases fs with
        | nil => rfl
        | cons f fs => rw [stepFiltEvaluateLoop, stepFiltEvaluateLoop, hentry, ih]
  simp only [stepFiltEvaluate, hloop]

/-- Two entries that differ at most in ignored bits of their match values. -/
def SameUnderMask (f g : StepFilter) : Prop :=
  f.op = g.op ∧ f.ignoreMask = g.ignoreMask ∧
    ∀ i < 32, f.ignoreMask.getLsbD i = false →
      f.matchBits.getLsbD i = g.matchBits.getLsbD i

theorem entryHolds_congr {f g : StepFilter} {word word' : BitVec 32}
    (hfg : SameUnderMask f g)
    (hword : ∀ i < 32, f.ignoreMask.getLsbD i = false →
      word.getLsbD i = word'.getLsbD i) :
    EntryHolds f word ↔ EntryHolds g word' := by
  obtain ⟨-, hmask, hmatch⟩ := hfg
  refine forall₂_congr fun i hi => ?_
  rw [← hmask]
  refine imp_congr_right fun hbit => ?_
  rw [hword i hi hbit, hmatch i hi hbit]

/-- Ignored bits, of the word or of the match values, do not enter the meaning. -/
theorem chainMeaning_congr {word word' : BitVec 32} {f g : StepFilter}
    {fs gs : List StepFilter} (hentries : List.Forall₂ SameUnderMask (f :: fs) (g :: gs))
    (hword : ∀ e ∈ f :: fs, ∀ i < 32, e.ignoreMask.getLsbD i = false →
      word.getLsbD i = word'.getLsbD i) :
    chainMeaning word f fs = chainMeaning word' g gs := by
  obtain ⟨hfg, hrest⟩ := List.forall₂_cons.mp hentries
  have hfirst := entryHolds_congr hfg (hword f List.mem_cons_self)
  rw [chainMeaning, chainMeaning, hfg.1, decide_eq_decide.mpr hfirst]
  generalize g.op.initial _ = prev
  replace hword := fun e he => hword e (List.mem_cons_of_mem f he)
  clear hentries hfirst
  induction hrest generalizing prev with
  | nil => rfl
  | @cons e e' es es' he _ ih =>
      have hholds := entryHolds_congr he (hword e List.mem_cons_self)
      rw [List.foldl_cons, List.foldl_cons, he.1, decide_eq_decide.mpr hholds]
      exact ih _ fun x hx => hword x (List.mem_cons_of_mem e hx)

/-- The operands of two such chains are the same. -/
theorem later_of_sameUnderMask {fs gs : List StepFilter}
    (hsame : List.Forall₂ SameUnderMask fs gs) (hlater : ∀ e ∈ fs, e.op.Later) :
    ∀ e ∈ gs, e.op.Later := by
  induction hsame with
  | nil => simp
  | @cons f g fs gs hfg _ ih =>
      intro e he
      rcases List.mem_cons.mp he with rfl | he
      · exact hfg.1 ▸ hlater f List.mem_cons_self
      · exact ih (fun x hx => hlater x (List.mem_cons_of_mem f hx)) e he

/-- **The filter engine computes the documented meaning.**  A chain of any
length that starts with IS or NOT and goes on with the later operands yields
return code 0 and the truth value of its left-associated expression; bits that
an entry ignores never influence the verdict; a missing chain and an empty one
accept every measurement. -/
theorem stepFiltEvaluate_documented (mes : StepMeasurement) (f : StepFilter)
    (fs : List StepFilter) (hfirst : f.op.Initial) (hlater : ∀ g ∈ fs, g.op.Later) :
    stepFiltEvaluate (some ⟨fs.length + 1, some (f :: fs)⟩) (some mes) =
        .ok (0, if chainMeaning mes.header.filterBits f fs then 1 else 0) ∧
      (∀ (mes' : StepMeasurement) (g : StepFilter) (gs : List StepFilter),
        List.Forall₂ SameUnderMask (f :: fs) (g :: gs) →
        (∀ e ∈ f :: fs, ∀ i < 32, e.ignoreMask.getLsbD i = false →
          mes.header.filterBits.getLsbD i = mes'.header.filterBits.getLsbD i) →
        stepFiltEvaluate (some ⟨gs.length + 1, some (g :: gs)⟩) (some mes') =
          stepFiltEvaluate (some ⟨fs.length + 1, some (f :: fs)⟩) (some mes)) ∧
      stepFiltEvaluate none (some mes) = .ok (0, 1) ∧
      ∀ chain, stepFiltEvaluate (some ⟨0, chain⟩) (some mes) = .ok (0, 1) := by
  refine ⟨stepFiltEvaluate_eq mes hfirst hlater, fun mes' g gs hsame hword => ?_, rfl,
    fun _ => rfl⟩
  obtain ⟨hfg, hrest⟩ := List.forall₂_cons.mp hsame
  have hfirst' : g.op.Initial := hfg.1 ▸ hfirst
  have hlater' := later_of_sameUnderMask hrest hlater
  rw [stepFiltEvaluate_eq mes hfirst hlater, stepFiltEvaluate_eq mes' hfirst' hlater',
    chainMeaning_congr hsame hword]

/-- The temperature chain of the test data, on a die temperature
with a 32-bit epoch timestamp. -/
theorem stepFiltEvaluate_documented_dieTemperature :
    stepFiltEvaluate
        (some ⟨3, some [⟨.is, 0x26, 0xFFFF0000⟩, ⟨.or, 0x226, 0xFFFF0000⟩,
          ⟨.and, 0x04000000, 0xE3FFFFFF⟩]⟩)
        (some ⟨⟨0x04000226, 0, 0⟩, []⟩) = .ok (0, 1) :=
  (stepFiltEvaluate_documented ⟨⟨0x04000226, 0, 0⟩, []⟩ ⟨.is, 0x26, 0xFFFF0000⟩
    [⟨.or, 0x226, 0xFFFF0000⟩, ⟨.and, 0x04000000, 0xE3FFFFFF⟩] (Or.inl rfl)
    (by simp [StepFilterOp.Later])).1.trans (by decide +kernel)

end StepPipeline
