import StepPipeline.Subscribers

/-!
# Handles

Four functions of the processor manager take a handle, and each of them checks it against
`step_pm_handle_counter` before it indexes the array of records.

* `stepPmNodeGet` — the fourth one, which reads a node of a chain;
* `HandleUse` and `callStep` — the statics under a sequence of calls, with **the handles
  that were given out** since the last clear;
* `NodeGetValid`, `CallValid` — such a handle is accepted, every other one is refused and
  nothing changes, and the call stays inside the array;
* `handle_valid_iff` — this holds of every handle but one: the checks let the value of the
  counter pass, the handle the next registration will get.

## The one handle too many

The four checks compare with `>` where `>=` is meant.  The slot that gets through is the one the
next registration will fill: inside the array it is a wiped record, which has no node, and at the
limit it lies behind the array.  That a check passes is not an error in itself, so the promises
are stated first (`NodeGetValid`, `CallValid`), and the theorem says for which handles they are
kept.  `step_pm_node_get` keeps its promise a little longer than the others, as for instance 0 it
just returns the NULL of the wiped record.

A call that leaves defined behaviour ends the run; that it would is part of the promise that is
broken.
-/

namespace StepPipeline

open IntrusiveList LabelledRun

variable {Ω : Type}

/-! ### Reading a node -/

/-- The loop of `step_pm_node_get`: `inst` links from a node on. -/
def nodeAt : StepNode Ω → List (StepNode Ω) → ℕ → Option (StepNode Ω)
  | n, _, 0 => some n
  | _, [], _ + 1 => none
  | _, n :: rest, inst + 1 => nodeAt n rest inst

/-- `step_pm_node_get`; `none` is the NULL it returns.  For another instance than 0 the first link
is followed before anything is tested, so a record without a node is a NULL dereference. -/
def stepPmNodeGet (P : Platform) (s : PmState Ω) (handle inst : ℕ) :
    Except UndefinedBehaviour (Option (StepNode Ω)) :=
  if s.handleCounter < handle then .ok none
  else if P.nodeLimit ≤ handle then .error .outOfBounds
  else
    match (s.nodes handle).node with
    | none => if inst = 0 then .ok none else .error .nullDeref
    | some chain => .ok (nodeAt chain.head chain.rest inst)

/-- The loop finds the node of that number, if the chain is long enough. -/
theorem nodeAt_eq (n : StepNode Ω) (rest : List (StepNode Ω)) (inst : ℕ) :
    nodeAt n rest inst = (n :: rest)[inst]? := by
  induction rest generalizing n inst with
  | nil => cases inst <;> rfl
  | cons m rest ih =>
      cases inst with
      | zero => rfl
      | succ inst => exact ih m inst

/-! ### Sequences of calls -/

/-- The statics, and the handles given out since the last clear, each with the chain it was given
out for.  `issued` is what the clients know: it is collected from the handles the registrations
store and not read off the statics. -/
structure HandleUse (Ω : Type) where
  pm : PmState Ω
  issued : List (ℕ × StepNodeChain Ω)

def HandleUse.init (P : Platform) : HandleUse Ω := ⟨.init P, []⟩

/-- The handles given out after a call: a registration stores its handle, or 0xFFFFFFFF
when there is none left. -/
def HandleUse.issuedAfter (P : Platform) (s : HandleUse Ω) :
    ApiCall Ω → List (ℕ × StepNodeChain Ω)
  | .clear => []
  | .register node pri world =>
      match (stepPmRegister P s.pm node pri world).handle with
      | some handle => if handle = 0xFFFFFFFF then s.issued else s.issued ++ [(handle, node)]
      | none => s.issued
  | _ => s.issued

/-- **One call**; one that leaves defined behaviour is not a step. -/
def callStep (P : Platform) (s : HandleUse Ω) (c : ApiCall Ω) : Option (HandleUse Ω) :=
  if (apiCall P s.pm c).fault = none ∧ c.heapOk s.pm = true then
    some ⟨(apiCall P s.pm c).pm, s.issuedAfter P c⟩
  else none

/-- The handle has been given out. -/
def HandleUse.Issued (s : HandleUse Ω) (handle : ℕ) : Prop :=
  ∃ chain, (handle, chain) ∈ s.issued

/-- **What is promised of `step_pm_node_get`**: the node of that number in the chain the
handle was given out for, NULL behind the end of the chain and for every other handle. -/
def NodeGetValid (P : Platform) (s : HandleUse Ω) (handle inst : ℕ) : Prop :=
  (∀ chain, (handle, chain) ∈ s.issued →
    stepPmNodeGet P s.pm handle inst = .ok (chain.head :: chain.rest)[inst]?) ∧
  (¬s.Issued handle → stepPmNodeGet P s.pm handle inst = .ok none)

/-- The handle a call receives. -/
def ApiCall.handleArg : ApiCall Ω → Option ℕ
  | .enable handle | .disable handle | .subscribe handle _ _ _ => some handle
  | .register _ _ _ | .clear => none

/-- **What is promised of the calls that receive a handle**: they stay inside the array,
accept a handle that was given out, and refuse every other one without a trace. -/
def CallValid (P : Platform) (s : HandleUse Ω) (c : ApiCall Ω) (handle : ℕ) : Prop :=
  (apiCall P s.pm c).fault = none ∧
  (s.Issued handle → (apiCall P s.pm c).rc ≠ negEinval) ∧
  (¬s.Issued handle → (apiCall P s.pm c).rc = negEinval ∧ (apiCall P s.pm c).pm = s.pm)

/-- **The handles given out are those of the registrations in force.** -/
structure HandleInvariant (P : Platform) (s : HandleUse Ω) : Prop where
  registry : ∃ regs l, Represents P s.pm regs l ∧
    ∀ handle chain, (handle, chain) ∈ s.issued ↔ ∃ pri, regs[handle]? = some (chain, pri)
  subscribers : ∃ subsOf, SubsRepresented s.pm subsOf

section Calls

variable {P : Platform} {s s' : HandleUse Ω} {c : ApiCall Ω} {handle inst : ℕ}

theorem handleInvariant_init (P : Platform) : HandleInvariant P (.init P : HandleUse Ω) where
  registry := ⟨[], [], represents_init P, by simp [HandleUse.init]⟩
  subscribers := ⟨_, subsRepresented_init P⟩

theorem callStep_eq_some (h : callStep P s c = some s') :
    (apiCall P s.pm c).fault = none ∧ c.heapOk s.pm = true ∧
      s' = ⟨(apiCall P s.pm c).pm, s.issuedAfter P c⟩ := by
  unfold callStep at h
  split at h
  · rename_i hok
    exact ⟨hok.1, hok.2, (Option.some.inj h).symm⟩
  · cases h

/-- **The step lemma of the handles.** -/
theorem callStep_handleInvariant (h : HandleInvariant P s) (hstep : callStep P s c = some s') :
    HandleInvariant P s' := by
  obtain ⟨regs, l, hrep, hissued⟩ := h.registry
  obtain ⟨subsOf, hsubs⟩ := h.subscribers
  obtain ⟨-, hheap, rfl⟩ := callStep_eq_some hstep
  obtain ⟨l', hrep', -⟩ := apiCall_represents hrep c
  refine ⟨⟨_, l', hrep', fun handle chain => ?_⟩,
    apiCall_subsRepresented hsubs hrep.counter_le hheap⟩
  cases c with
  | clear => simp [HandleUse.issuedAfter, registerCall]
  | enable _ => exact hissued handle chain
  | disable _ => exact hissued handle chain
  | subscribe _ _ _ _ => exact hissued handle chain
  | register node pri world =>
      have hle := hrep.counter_le
      have hrange := P.nodeLimit_range.2
      simp only [HandleUse.issuedAfter, stepPmRegister, if_neg (not_lt.mpr hle), registerCall,
        ← hrep.counter_eq]
      by_cases hfull : s.pm.handleCounter = P.nodeLimit
      · simp only [if_pos hfull]
        exact hissued handle chain
      · have hne : s.pm.handleCounter ≠ 0xFFFFFFFF := by omega
        simp only [if_neg hfull, if_neg hne, List.mem_append, List.mem_singleton,
          Prod.mk.injEq, hissued handle chain]
        -- below the counter the old registrations answer, at the counter the new one
        rw [List.getElem?_append]
        split
        · rename_i hlt
          refine or_iff_left fun heq => ?_
          rw [← hrep.counter_eq, heq.1] at hlt
          exact lt_irrefl _ hlt
        · rename_i hge
          have hnone : regs[handle]? = none := List.getElem?_eq_none (not_lt.mp hge)
          rw [hnone]
          constructor
          · rintro (⟨_, hpri⟩ | ⟨rfl, rfl⟩)
            · cases hpri
            · exact ⟨pri, by simp [hrep.counter_eq]⟩
          · rintro ⟨pri', hpri⟩
            obtain ⟨hzero, heq⟩ : handle - regs.length = 0 ∧ (node, pri) = (chain, pri') := by
              rw [List.getElem?_singleton] at hpri
              split at hpri
              · exact ⟨‹_›, Option.some.inj hpri⟩
              · cases hpri
            rw [hrep.counter_eq]
            exact Or.inr ⟨by omega, (Prod.mk.inj heq).1.symm⟩

/-- The handles below the counter have been given out, and no others. -/
theorem HandleInvariant.issued_iff (h : HandleInvariant P s) (handle : ℕ) :
    s.Issued handle ↔ handle < s.pm.handleCounter := by
  obtain ⟨regs, l, hrep, hissued⟩ := h.registry
  rw [hrep.counter_eq, HandleUse.Issued]
  simp only [hissued]
  constructor
  · rintro ⟨chain, pri, hreg⟩
    exact (List.getElem?_eq_some_iff.mp hreg).1
  · intro hlt
    exact ⟨regs[handle].1, regs[handle].2, List.getElem?_eq_getElem hlt⟩

/-- **Reading a node**, exactly.  In between lies the counter: below it handles are valid, above
it they are refused. -/
theorem HandleInvariant.nodeGetValid_iff (h : HandleInvariant P s) :
    NodeGetValid P s handle inst ↔
      handle ≠ s.pm.handleCounter ∨ handle < P.nodeLimit ∧ inst = 0 := by
  obtain ⟨regs, l, hrep, hissued⟩ := h.registry
  obtain ⟨subsOf, hsubs⟩ := h.subscribers
  have hle := hrep.counter_le
  rw [NodeGetValid, h.issued_iff]
  rcases lt_trichotomy handle s.pm.handleCounter with hlt | heq | hgt
  · refine iff_of_true ⟨fun chain hchain => ?_, fun hnot => absurd hlt hnot⟩ (Or.inl hlt.ne)
    obtain ⟨pri, hreg⟩ := (hissued handle chain).mp hchain
    rw [stepPmNodeGet, if_neg (by omega), if_neg (by omega), (hrep.slot handle _ hreg).2.1]
    exact congrArg Except.ok (nodeAt_eq _ _ _)
  · -- the handle the check lets pass: its slot is not in use, or not in the array
    have hnot : ∀ chain, (handle, chain) ∉ s.issued := fun chain hchain =>
      absurd ((h.issued_iff handle).mp ⟨chain, hchain⟩) heq.ge.not_gt
    have hget : stepPmNodeGet P s.pm handle inst = .ok none ↔
        handle < P.nodeLimit ∧ inst = 0 := by
      rw [stepPmNodeGet, if_neg heq.le.not_gt, (hsubs.wiped handle heq.ge).2]
      by_cases hlimit : P.nodeLimit ≤ handle
      · simp [hlimit]
      · by_cases hinst : inst = 0 <;> simp [hlimit, hinst, not_le.mp hlimit]
    constructor
    · rintro ⟨-, hnull⟩
      exact Or.inr (hget.mp (hnull heq.ge.not_gt))
    · rintro (hne | hin)
      · exact absurd heq hne
      · exact ⟨fun chain hchain => absurd hchain (hnot chain), fun _ => hget.mpr hin⟩
  · refine iff_of_true ⟨fun chain hchain => ?_, fun _ => ?_⟩ (Or.inl hgt.ne')
    · exact absurd ((h.issued_iff handle).mp ⟨chain, hchain⟩) (by omega)
    · rw [stepPmNodeGet, if_pos hgt]

/-- **What a call does with the handle it receives**: above the counter it is refused; up
to the counter it is accepted, and inside the array nothing goes wrong. -/
theorem apiCall_handleArg {pm : PmState Ω} (hc : c.handleArg = some handle) :
    (pm.handleCounter < handle → apiCall P pm c = Outcome.ret pm negEinval) ∧
      (handle ≤ pm.handleCounter → (apiCall P pm c).rc ≠ negEinval) ∧
      (handle ≤ pm.handleCounter → handle < P.nodeLimit → (apiCall P pm c).fault = none) := by
  have hok : (0 : ℤ) ≠ negEinval := by decide
  have hnomem : negEnomem ≠ negEinval := by decide
  have hset : ∀ on, (pm.handleCounter < handle →
        stepPmSetEnabled P pm on handle = Outcome.ret pm negEinval) ∧
      (handle ≤ pm.handleCounter → (stepPmSetEnabled P pm on handle).rc ≠ negEinval) ∧
      (handle ≤ pm.handleCounter → handle < P.nodeLimit →
        (stepPmSetEnabled P pm on handle).fault = none) := by
    intro on
    refine ⟨fun hgt => if_pos hgt, fun hle => ?_, fun hle hlt => ?_⟩
    · rw [stepPmSetEnabled, if_neg hle.not_gt]
      split <;> exact hok
    · rw [stepPmSetEnabled, if_neg hle.not_gt, if_neg hlt.not_ge]
      rfl
  cases c with
  | register _ _ _ => cases hc
  | clear => cases hc
  | enable _ => exact Option.some.inj hc ▸ hset true
  | disable _ => exact Option.some.inj hc ▸ hset false
  | subscribe _ cb userData block =>
      obtain rfl := Option.some.inj hc
      refine ⟨fun hgt => if_pos hgt, fun hle => ?_, fun hle hlt => ?_⟩
      · simp only [apiCall, stepPmSubscribeToNode, if_neg hle.not_gt]
        cases block with
        | none => exact hnomem
        | some nc =>
            dsimp only
            split <;> exact hok
      · simp only [apiCall, stepPmSubscribeToNode, if_neg hle.not_gt, if_neg hlt.not_ge]
        cases block <;> rfl

/-- **The other calls that receive a handle**, exactly. -/
theorem HandleInvariant.callValid_iff (h : HandleInvariant P s)
    (hc : c.handleArg = some handle) :
    CallValid P s c handle ↔ handle ≠ s.pm.handleCounter := by
  obtain ⟨regs, l, hrep, -⟩ := h.registry
  have hle := hrep.counter_le
  obtain ⟨hrefused, haccepted, hinside⟩ := @apiCall_handleArg _ P c handle s.pm hc
  rw [CallValid, h.issued_iff]
  rcases lt_trichotomy handle s.pm.handleCounter with hlt | heq | hgt
  · exact iff_of_true ⟨hinside hlt.le (hlt.trans_le hle), fun _ => haccepted hlt.le,
      fun hnot => absurd hlt hnot⟩ hlt.ne
  · refine iff_of_false (fun hvalid => ?_) (fun hne => hne heq)
    exact haccepted heq.le (hvalid.2.2 heq.ge.not_gt).1
  · rw [hrefused hgt]
    exact iff_of_true ⟨rfl, fun hlt => absurd hlt hgt.not_gt, fun _ => ⟨rfl, rfl⟩⟩ hgt.ne'

/-- **Handle validity, exactly.**  After any sequence of calls, whatever the handles they
received: `step_pm_node_get` keeps its promise for every handle and every instance unless
the handle is the value of the counter, where it does for instance 0 inside the array; and
enabling, disabling and subscribing keep theirs for every handle but that one. -/
theorem handle_valid_iff (P : Platform) {calls : List (ApiCall Ω)}
    (hrun : run (callStep P) (.init P) calls = some s) (handle : ℕ) :
    (∀ inst, NodeGetValid P s handle inst ↔
        handle ≠ s.pm.handleCounter ∨ handle < P.nodeLimit ∧ inst = 0) ∧
      ∀ c : ApiCall Ω, c.handleArg = some handle →
        (CallValid P s c handle ↔ handle ≠ s.pm.handleCounter) := by
  have hinv : HandleInvariant P s :=
    run_preserves (fun _ _ _ hI hstep => callStep_handleInvariant hI hstep)
      (handleInvariant_init P) hrun
  exact ⟨fun _ => hinv.nodeGetValid_iff, fun _ hc => hinv.callValid_iff hc⟩

/-- One registration: handle 0 has been given out, handle 1 has not. -/
theorem handle_valid_iff_one :
    ∃ s, run (callStep Platform.tests) (.init Platform.tests)
        [.register silentChain 1 fun _ => ()] = some s ∧
      ((∀ inst, NodeGetValid Platform.tests s 0 inst ↔
          0 ≠ s.pm.handleCounter ∨ 0 < Platform.tests.nodeLimit ∧ inst = 0) ∧
        ∀ c : ApiCall Unit, c.handleArg = some 0 →
          (CallValid Platform.tests s c 0 ↔ 0 ≠ s.pm.handleCounter)) := by
  obtain ⟨s, hrun⟩ : ∃ s, run (callStep Platform.tests) (.init Platform.tests : HandleUse Unit)
      [.register silentChain 1 fun _ => ()] = some s := ⟨_, rfl⟩
  exact ⟨s, hrun, handle_valid_iff Platform.tests hrun 0⟩

/-- **The value of the counter passes for a handle.**  After one registration, handle 1 can
be enabled although it was not given out, and reading its second node follows a NULL node;
after four, handle 4 leads behind the array. -/
theorem counter_passes_for_handle :
    (∃ s, run (callStep Platform.tests) (.init Platform.tests)
        [.register silentChain 1 fun _ => ()] = some s ∧
      ¬s.Issued 1 ∧ (apiCall Platform.tests s.pm (.enable 1)).rc = 0 ∧
      stepPmNodeGet Platform.tests s.pm 1 1 = .error .nullDeref ∧
      ¬CallValid Platform.tests s (.enable 1) 1 ∧ ¬NodeGetValid Platform.tests s 1 1) ∧
    ∃ s, run (callStep Platform.tests) (.init Platform.tests)
        (List.replicate 4 (.register silentChain 1 fun _ => ())) = some s ∧
      ¬s.Issued 4 ∧ stepPmNodeGet Platform.tests s.pm 4 0 = .error .outOfBounds ∧
      (apiCall Platform.tests s.pm (.disable 4)).fault = some .outOfBounds := by
  have hnot : ∀ (s : HandleUse Unit) (handle : ℕ), handle ∉ s.issued.map Prod.fst →
      ¬s.Issued handle := fun s handle h ⟨chain, hchain⟩ =>
    h (List.mem_map.mpr ⟨(handle, chain), hchain, rfl⟩)
  constructor
  · obtain ⟨s, hrun, hissued, hrc, hget⟩ : ∃ s, run (callStep Platform.tests)
        (.init Platform.tests) [.register silentChain 1 fun _ => ()] = some s ∧
        1 ∉ s.issued.map Prod.fst ∧ (apiCall Platform.tests s.pm (.enable 1)).rc = 0 ∧
        stepPmNodeGet Platform.tests s.pm 1 1 = .error .nullDeref :=
      ⟨_, rfl, by decide, rfl, rfl⟩
    have hone := hnot s 1 hissued
    refine ⟨s, hrun, hone, hrc, hget, fun hvalid => ?_, fun hvalid => ?_⟩
    · rw [(hvalid.2.2 hone).1] at hrc
      exact absurd hrc (by decide)
    · rw [hvalid.2 hone] at hget
      cases hget
  · obtain ⟨s, hrun, hissued, hget, hfault⟩ : ∃ s, run (callStep Platform.tests)
        (.init Platform.tests) (List.replicate 4 (.register silentChain 1 fun _ => ())) =
        some s ∧ 4 ∉ s.issued.map Prod.fst ∧
        stepPmNodeGet Platform.tests s.pm 4 0 = .error .outOfBounds ∧
        (apiCall Platform.tests s.pm (.disable 4)).fault = some .outOfBounds :=
      ⟨_, rfl, by decide, rfl, rfl⟩
    exact ⟨s, hrun, hnot s 4 hissued, hget, hfault⟩

end Calls

end StepPipeline
