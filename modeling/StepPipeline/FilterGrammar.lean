import StepPipeline.Filter

/-!
# The grammar of filter chains

Which chains `step_filt_evaluate` accepts, against the ones its header file documents.

* `Documented` — **the grammar**: IS or NOT first, the other five operands behind;
* `StepFilterChain.Accepted` — the catch-alls, by a count of 0 or a NULL pointer, and the
  chains of the grammar;
* `AcceptsByGrammar` — what a call has to do with a chain and a measurement;
* `acceptsByGrammar_iff` — **where it does**: only the first operand is looked at, and the
  pointer is followed whenever the count is not 0.

## Two ways to leave the grammar

`step_filter_chain` documents two spellings of the catch-all, a count of 0 and a NULL pointer.
The code tests the count and the pointer to the chain, `fc`, and takes the pointer in the chain,
`fc->chain`, for granted: with a count other than 0 and NULL it reads through it.  And it refuses
a chain by its first operand alone; a later IS or NOT is carried out, and forgets everything to
its left.

So the condition is on the chain and has nothing to do with the measurement: whether there is one
is tested before, and any measurement will do (`acceptsByGrammar_entries_iff`).
-/

namespace StepPipeline

/-- **The documented grammar** of a chain that has entries. -/
def Documented : List StepFilter → Prop
  | [] => False
  | f :: fs => f.op.Initial ∧ ∀ g ∈ fs, g.op.Later

/-- The entry array, where there is one, has as many entries as the chain counts.  No function can
check this; a caller that breaks it has the array read past its end. -/
def StepFilterChain.Sized (fc : StepFilterChain) : Prop :=
  ∀ entries, fc.chain = some entries → fc.count ≤ entries.length

/-- **The chains that are to be accepted**: the catch-alls and those of the grammar. -/
def StepFilterChain.Accepted (fc : StepFilterChain) : Prop :=
  fc.count = 0 ∨ ∀ entries, fc.chain = some entries → Documented (entries.take fc.count)

/-- **Acceptance by the grammar**: the call returns 0 on a measurement and a chain that is to be
accepted, and in every other case `-EINVAL` with `*match` 0; it follows no NULL.  The three parts
are what the documentation of `step_filt_evaluate` promises of the return code. -/
def AcceptsByGrammar (fc : StepFilterChain) (mes : Option StepMeasurement) : Prop :=
  stepFiltEvaluate (some fc) mes ≠ .error .nullDeref ∧
    (mes ≠ none ∧ fc.Accepted → ∃ verdict, stepFiltEvaluate (some fc) mes = .ok (0, verdict)) ∧
    (¬(mes ≠ none ∧ fc.Accepted) → stepFiltEvaluate (some fc) mes = .ok (negEinval, 0))

/-- The entry array is there, and a chain that starts as documented goes on as documented.  A
chain that starts otherwise is refused, rightly, whatever comes behind. -/
def StepFilterChain.GoesOnAsDocumented (fc : StepFilterChain) : Prop :=
  ∃ f fs, (fc.chain.map (List.take fc.count)) = some (f :: fs) ∧
    (f.op.Initial → ∀ g ∈ fs, g.op.Later)

/-- The loop gets to its end, whatever the operands are. -/
theorem stepFiltEvaluateLoop_ok (mes : StepMeasurement) {count : ℕ} {fs : List StepFilter}
    (hle : count ≤ fs.length) (prev : ℤ) :
    ∃ verdict, stepFiltEvaluateLoop mes count fs prev = .ok verdict := by
  induction count generalizing fs prev with
  | zero => exact ⟨prev, rfl⟩
  | succ count ih =>
      cases fs with
      | nil => simp at hle
      | cons f fs => exact ih (Nat.le_of_succ_le_succ hle) _

/-- What a call does with entries: the first operand alone decides the code. -/
theorem stepFiltEvaluate_entries {fc : StepFilterChain} {f : StepFilter}
    {fs : List StepFilter} (hcount : fc.count ≠ 0) (hchain : fc.chain = some (f :: fs))
    (hle : fc.count ≤ (f :: fs).length) (mes : StepMeasurement) :
    (f.op.Initial → ∃ verdict, stepFiltEvaluate (some fc) (some mes) = .ok (0, verdict)) ∧
      (¬f.op.Initial → stepFiltEvaluate (some fc) (some mes) = .ok (negEinval, 0)) := by
  have hop : (f.op ≠ .is ∧ f.op ≠ .not) ↔ ¬f.op.Initial := not_or.symm
  simp only [stepFiltEvaluate, if_neg hcount, hchain]
  constructor
  · intro hfirst
    obtain ⟨verdict, hloop⟩ := stepFiltEvaluateLoop_ok mes hle 0
    rw [if_neg (fun h => hop.mp h hfirst), hloop]
    exact ⟨verdict, rfl⟩
  · intro hfirst
    rw [if_pos (hop.mpr hfirst)]

/-- **A chain with entries** is treated by the grammar exactly if it is not one that starts
as documented and goes on otherwise. -/
theorem acceptsByGrammar_entries_iff {fc : StepFilterChain} {f : StepFilter}
    {fs : List StepFilter} (hcount : fc.count ≠ 0) (hchain : fc.chain = some (f :: fs))
    (hle : fc.count ≤ (f :: fs).length) (mes : StepMeasurement) :
    AcceptsByGrammar fc (some mes) ↔ fc.GoesOnAsDocumented := by
  obtain ⟨count, hsucc⟩ := Nat.exists_eq_succ_of_ne_zero hcount
  have htake : (f :: fs).take fc.count = f :: fs.take count := by
    rw [hsucc, List.take_succ_cons]
  have haccepted : fc.Accepted ↔ f.op.Initial ∧ ∀ g ∈ fs.take count, g.op.Later := by
    simp [StepFilterChain.Accepted, hcount, hchain, htake, Documented]
  have hgoes : fc.GoesOnAsDocumented ↔ (f.op.Initial → ∀ g ∈ fs.take count, g.op.Later) := by
    simp [StepFilterChain.GoesOnAsDocumented, hchain, htake]
  obtain ⟨hinitial, hother⟩ := stepFiltEvaluate_entries hcount hchain hle mes
  rw [AcceptsByGrammar, haccepted, hgoes]
  by_cases hfirst : f.op.Initial
  · obtain ⟨verdict, heval⟩ := hinitial hfirst
    rw [heval]
    constructor
    · rintro ⟨-, -, hrefuse⟩ -
      by_contra hlater
      have hcode := Except.ok.inj (hrefuse fun h => hlater h.2.2)
      have hzero : (0 : ℤ) = negEinval := congrArg Prod.fst hcode
      exact absurd hzero (by decide)
    · intro hlater
      refine ⟨by simp, fun _ => ⟨verdict, rfl⟩, fun hnot => absurd ?_ hnot⟩
      exact ⟨Option.some_ne_none mes, hfirst, hlater hfirst⟩
  · rw [hother hfirst]
    refine iff_of_true ⟨by simp, fun h => ?_, fun _ => rfl⟩ fun h => ?_
    · exact absurd h.2.1 hfirst
    · exact absurd h hfirst

/-- **Acceptance by the grammar, exactly**: there is no measurement, or the count is 0, or
the entries are there and do not start as documented only to go on otherwise. -/
theorem accepts_by_grammar_iff (fc : StepFilterChain) (mes : Option StepMeasurement)
    (hsized : fc.Sized) :
    AcceptsByGrammar fc mes ↔ mes = none ∨ fc.count = 0 ∨ fc.GoesOnAsDocumented := by
  cases mes with
  | none =>
      have heval : stepFiltEvaluate (some fc) none = .ok (negEinval, 0) := rfl
      rw [AcceptsByGrammar, heval]
      exact iff_of_true ⟨by simp, fun h => absurd rfl h.1, fun _ => rfl⟩ (Or.inl rfl)
  | some mes =>
      rw [or_iff_right (Option.some_ne_none mes)]
      by_cases hcount : fc.count = 0
      · have heval : stepFiltEvaluate (some fc) (some mes) = .ok (0, 1) := by
          simp only [stepFiltEvaluate, if_pos hcount]
        rw [AcceptsByGrammar, heval]
        refine iff_of_true ⟨by simp, fun _ => ⟨1, rfl⟩, fun hnot => ?_⟩ (Or.inl hcount)
        exact absurd ⟨Option.some_ne_none mes, Or.inl hcount⟩ hnot
      · rw [or_iff_right hcount]
        cases hchain : fc.chain with
        | none =>
            -- the pointer is followed to read the first operand
            have heval : stepFiltEvaluate (some fc) (some mes) = .error .nullDeref := by
              simp only [stepFiltEvaluate, if_neg hcount, hchain]
            refine iff_of_false (fun h => h.1 heval) ?_
            simp [StepFilterChain.GoesOnAsDocumented, hchain]
        | some entries =>
            have hle := hsized entries hchain
            cases entries with
            | nil => exact absurd (Nat.le_zero.mp hle) hcount
            | cons f fs => exact acceptsByGrammar_entries_iff hcount hchain hle mes

/-- The test node's chain, with a die temperature. -/
theorem accepts_by_grammar_iff_dieTemperature :
    AcceptsByGrammar
      ⟨3, some [⟨.is, 0x26, 0xFFFF0000⟩, ⟨.or, 0x226, 0xFFFF0000⟩, ⟨.and, 0x04000000, 0xE3FFFFFF⟩]⟩
      (some ⟨⟨0x04000226, 0, 0⟩, []⟩) := by
  refine (accepts_by_grammar_iff _ _ ?_).mpr (Or.inr (Or.inr ⟨_, _, rfl, fun _ => ?_⟩))
  · rintro entries hentries
    obtain rfl := Option.some.inj hentries
    exact le_rfl
  · simp [StepFilterOp.Later]

/-- **Accepted against the grammar**: a second IS, which forgets the entry before it; and
a NULL pointer beside a count other than 0 is followed. -/
theorem second_is_accepted :
    let mes : StepMeasurement := ⟨⟨0x26, 0, 0⟩, []⟩
    let twice : StepFilterChain := ⟨2, some [⟨.is, 0x27, 0⟩, ⟨.is, 0x26, 0⟩]⟩
    let missing : StepFilterChain := ⟨1, none⟩
    twice.Sized ∧ stepFiltEvaluate (some twice) (some mes) = .ok (0, 1) ∧
      ¬AcceptsByGrammar twice (some mes) ∧
      missing.Sized ∧ stepFiltEvaluate (some missing) (some mes) = .error .nullDeref ∧
      ¬AcceptsByGrammar missing (some mes) := by
  intro mes twice missing
  have htwice : stepFiltEvaluate (some twice) (some mes) = .ok (0, 1) := by decide +kernel
  refine ⟨?_, htwice, fun h => ?_, ?_, rfl, fun h => h.1 rfl⟩
  · rintro entries hentries
    obtain rfl := Option.some.inj hentries
    exact le_rfl
  · have hnot : ¬twice.Accepted := by
      simp [twice, StepFilterChain.Accepted, Documented, StepFilterOp.Later]
    have hrefused := htwice.symm.trans (h.2.2 fun hboth => hnot hboth.2)
    have hone : (1 : ℤ) = 0 := congrArg Prod.snd (Except.ok.inj hrefused)
    exact absurd hone one_ne_zero
  · rintro entries hentries
    cases hentries

end StepPipeline
