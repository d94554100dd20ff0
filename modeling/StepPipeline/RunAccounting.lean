import StepPipeline.Dispatch

/-!
# The accounts of the instrumentation

With `CONFIG_STEP_INSTRUMENTATION` a record has two 32-bit counters, `runtime_ns` and
`runs`.  The dispatch loop writes them behind a visit, `step_pm_register` clears them, and
`step_pm_list` divides one by the other.

* `stepPmList` — what is listed, and how that can fail;
* `Charge` and `charges` — **what happens to the counters** in a step, read off the state
  the step is taken from;
* `visitsOf` — the visits finished since the record in a slot was registered, with the
  readings of the cycle counter before and behind each;
* `Charged` — the counters are those of these visits, modulo 2^32; `run_charged`, in every
  run;
* `list_divides_iff` — a listing divides by zero unless every record in the list has
  finished a visit, and not a multiple of 2^32 of them.

## Accounts kept by slot

The code charges a visit to the slot `pnode` points to, whoever is registered there by the time
the chain is done.  A charge therefore carries the slot, and the account of a record is what has
been charged to its slot since it was registered.  `CycleReadings` asks the other question,
whether the visit charged was one of that record at all.

A build without instrumentation has no counters and prints no average, so it has nothing to
divide; the results say so in their hypothesis or in their condition.
-/

namespace StepPipeline

open LabelledRun

variable {Ω : Type}

/-! ### The listing -/

/-- How a listing can fail. -/
inductive ListFault where
  | divisionByZero
  /-- A record without a node. -/
  | nullDeref
  deriving DecidableEq, Repr

/-- The processing time of a record as it is printed. -/
structure ProcessingTime where
  runtimeNs : BitVec 32
  avg : BitVec 32
  runs : BitVec 32
  deriving DecidableEq, Repr

/-- What is printed of a record: `instances` is the number of its nodes. -/
structure ListedRecord where
  handle : ℕ
  priority : ℕ
  processing : Option ProcessingTime
  instances : ℕ
  deriving DecidableEq, Repr

/-- `/` on `uint32_t`.  Division by zero is undefined, so it is an error of its own and not the 0
that `BitVec` makes of it. -/
def divide (a b : BitVec 32) : Except ListFault (BitVec 32) :=
  if b = 0#32 then .error .divisionByZero else .ok (a / b)

/-- The processing time of a record, in a build with instrumentation. -/
def processingTime (P : Platform) (r : StepPmNodeRecord Ω) :
    Except ListFault (Option ProcessingTime) :=
  if P.instrumentation then
    (divide r.runtimeNs r.runs).map fun avg => some ⟨r.runtimeNs, avg, r.runs⟩
  else .ok none

/-- The loop body of `step_pm_list`. -/
def listRecord (P : Platform) (r : StepPmNodeRecord Ω) : Except ListFault ListedRecord :=
  (processingTime P r).bind fun processing =>
    match r.node with
    | none => .error .nullDeref
    | some chain => .ok ⟨r.handle, r.priority, processing, chain.rest.length + 1⟩

/-- The loop of `step_pm_list` over the records that are left. -/
def listRecords (P : Platform) (s : PmState Ω) : List ℕ → Except ListFault (List ListedRecord)
  | [] => .ok []
  | i :: l =>
      (listRecord P (s.nodes i)).bind fun line =>
        (listRecords P s l).map fun lines => line :: lines

/-- `step_pm_list`.  The list is taken as it is in one state here; what comes in between two
records of a listing is the subject of `Listing`. -/
def stepPmList (P : Platform) (s : PmState Ω) : Except ListFault (List ListedRecord) :=
  listRecords P s (s.listed P)

section List

variable {P : Platform} {s : PmState Ω} {r : StepPmNodeRecord Ω} {l : List ℕ}

theorem listRecord_of_zero (hon : P.instrumentation = true) (hruns : r.runs = 0#32) :
    listRecord P r = .error .divisionByZero := by
  simp [listRecord, processingTime, divide, hon, hruns, Except.bind, Except.map]

theorem listRecord_ok {chain : StepNodeChain Ω} (hnode : r.node = some chain)
    (hruns : P.instrumentation = true → r.runs ≠ 0#32) :
    ∃ line, listRecord P r = .ok line := by
  cases hon : P.instrumentation with
  | false => simp [listRecord, processingTime, hon, hnode, Except.bind]
  | true =>
      simp [listRecord, processingTime, divide, hon, hruns hon, hnode, Except.bind, Except.map]

/-- **A listing divides by zero** when it meets a record whose counter is 0. -/
theorem listRecords_ne_divisionByZero_iff (hnode : ∀ i ∈ l, (s.nodes i).node ≠ none) :
    listRecords P s l ≠ .error .divisionByZero ↔
      (P.instrumentation = true → ∀ i ∈ l, (s.nodes i).runs ≠ 0#32) := by
  induction l with
  | nil => simp [listRecords]
  | cons i l ih =>
      rw [List.forall_mem_cons] at hnode
      obtain ⟨chain, hchain⟩ := Option.ne_none_iff_exists'.mp hnode.1
      rw [listRecords]
      by_cases hruns : P.instrumentation = true → (s.nodes i).runs ≠ 0#32
      · obtain ⟨line, hline⟩ := listRecord_ok hchain hruns
        -- the line is printed, and the rest decides
        have hrest : ((listRecord P (s.nodes i)).bind fun line =>
            (listRecords P s l).map fun lines => line :: lines) ≠ .error .divisionByZero ↔
            listRecords P s l ≠ .error .divisionByZero := by
          rw [hline]
          cases listRecords P s l <;> simp [Except.bind, Except.map]
        rw [hrest, ih hnode.2]
        simp only [List.forall_mem_cons]
        exact forall_congr' fun hon => (and_iff_right (hruns hon)).symm
      · push Not at hruns
        rw [listRecord_of_zero hruns.1 hruns.2]
        refine iff_of_false (fun h => h rfl) fun h => ?_
        exact (h hruns.1 i List.mem_cons_self) hruns.2

end List

/-! ### What happens to the counters -/

/-- What happens to the counters of the records. -/
inductive Charge where
  /-- A record is registered in the slot. -/
  | registered (slot : ℕ)
  /-- The registry is cleared. -/
  | cleared
  /-- The visit of the record in the slot is finished.  The cycle counter read `start` when
  it began, and reads `stop` now. -/
  | visited (slot : ℕ) (start stop : BitVec 32)
  deriving DecidableEq, Repr

/-- **What a step does to the counters**, read off the state it is taken from. -/
def charges (P : Platform) (s : Sys Ω) : Label Ω → List Charge
  | .process _ _ _ => []
  | .proc inp =>
      match s.proc with
      | none => []
      | some p =>
          match p.pc with
          | .relock => [.visited p.pnode p.instr inp.cycles]
          | _ => []
  | .other _ (.register _ _ _) =>
      if s.pm.handleCounter = P.nodeLimit then [] else [.registered s.pm.handleCounter]
  | .other _ .clear => [.cleared]
  | .other _ _ => []

/-- A finished visit: the cycle counter before it, and behind it. -/
structure FinishedVisit where
  start : BitVec 32
  stop : BitVec 32
  deriving DecidableEq, Repr

/-- The visits of a slot, after a charge. -/
def chargeVisits (slot : ℕ) (visits : List FinishedVisit) : Charge → List FinishedVisit
  | .registered i => if i = slot then [] else visits
  | .cleared => []
  | .visited i start stop => if i = slot then visits ++ [⟨start, stop⟩] else visits

/-- **The visits of the record in a slot** that were finished since it was registered. -/
def visitsOf (slot : ℕ) (charged : List Charge) : List FinishedVisit :=
  charged.foldl (chargeVisits slot) []

@[simp] theorem visitsOf_concat (slot : ℕ) (charged : List Charge) (c : Charge) :
    visitsOf slot (charged ++ [c]) = chargeVisits slot (visitsOf slot charged) c := by
  rw [visitsOf, List.foldl_append]
  rfl

/-- What `STEP_INSTR_STOP` makes of a visit. -/
def FinishedVisit.ns (P : Platform) (v : FinishedVisit) : BitVec 32 :=
  stepInstrStop P v.start v.stop

/-- **The counters of a record are those of its visits**, as far as 32 bits go. -/
structure RecordCharged (P : Platform) (r : StepPmNodeRecord Ω) (visits : List FinishedVisit) :
    Prop where
  runs : r.runs = BitVec.ofNat 32 visits.length
  runtimeNs : r.runtimeNs = (visits.map (FinishedVisit.ns P)).sum

/-- …of every record.  All slots of the array are meant, registered or not: a slot that holds
nothing has been charged nothing. -/
def Charged (P : Platform) (s : PmState Ω) (charged : List Charge) : Prop :=
  ∀ slot < P.nodeLimit, RecordCharged P (s.nodes slot) (visitsOf slot charged)

section Charged

variable {P : Platform} {s s' : Sys Ω} {pm pm' : PmState Ω} {l : Label Ω}
  {charged : List Charge} {r r' : StepPmNodeRecord Ω} {visits : List FinishedVisit}

theorem RecordCharged.of_same (h : RecordCharged P r visits) (hruns : r'.runs = r.runs)
    (hruntime : r'.runtimeNs = r.runtimeNs) : RecordCharged P r' visits :=
  ⟨hruns.trans h.runs, hruntime.trans h.runtimeNs⟩

/-- A record without a visit. -/
theorem recordCharged_nil (hruns : r.runs = 0#32) (hruntime : r.runtimeNs = 0#32) :
    RecordCharged P r [] :=
  ⟨hruns, hruntime⟩

/-- One visit more, in 32 bits. -/
theorem ofNat_length_concat (visits : List FinishedVisit) (v : FinishedVisit) :
    BitVec.ofNat 32 (visits ++ [v]).length = BitVec.ofNat 32 visits.length + 1 := by
  rw [List.length_append, List.length_singleton, BitVec.ofNat_add]
  rfl

/-- One visit more. -/
theorem RecordCharged.visit (h : RecordCharged P r visits) (v : FinishedVisit) :
    RecordCharged P { r with runtimeNs := r.runtimeNs + v.ns P, runs := r.runs + 1 }
      (visits ++ [v]) where
  runs := by rw [ofNat_length_concat, ← h.runs]
  runtimeNs := by
    rw [List.map_append, List.sum_append, ← h.runtimeNs]
    simp

/-- A call that leaves the counters alone. -/
theorem Charged.of_same (h : Charged P pm charged)
    (hsame : ∀ i, (pm'.nodes i).runs = (pm.nodes i).runs ∧
      (pm'.nodes i).runtimeNs = (pm.nodes i).runtimeNs) : Charged P pm' charged :=
  fun slot hslot => (h slot hslot).of_same (hsame slot).1 (hsame slot).2

/-- Whether a call wipes the counters of the record in a slot: a clear does, and the
registration that takes the slot. -/
def ApiCall.Wipes (P : Platform) (s : PmState Ω) (slot : ℕ) : ApiCall Ω → Prop
  | .register _ _ _ => s.handleCounter ≠ P.nodeLimit ∧ s.handleCounter = slot
  | .clear => True
  | _ => False

/-- **What a call does to the counters** of the record in a slot. -/
theorem apiCall_counters (hle : pm.handleCounter ≤ P.nodeLimit) (c : ApiCall Ω) {slot : ℕ}
    (hslot : slot < P.nodeLimit) :
    let r := pm.nodes slot
    let r' := (apiCall P pm c).pm.nodes slot
    (c.Wipes P pm slot → r'.runs = 0#32 ∧ r'.runtimeNs = 0#32) ∧
      (¬c.Wipes P pm slot → r'.runs = r.runs ∧ r'.runtimeNs = r.runtimeNs) := by
  intro r r'
  have hmove := apiCall_move hle c
  simp only [r, r']
  generalize (apiCall P pm c).pm = pm' at hmove
  cases hmove with
  | full node pri world hfull => exact ⟨fun h => absurd hfull h.1, fun _ => ⟨rfl, rfl⟩⟩
  | add node pri world hlimit =>
      by_cases hi : pm.handleCounter = slot
      · subst hi
        have hnew : (pm.addRecord P node pri).nodes pm.handleCounter =
            newRecord node pri pm.handleCounter := Function.update_self _ _ _
        rw [hnew]
        exact ⟨fun _ => ⟨rfl, rfl⟩, fun h => absurd ⟨hlimit.ne, rfl⟩ h⟩
      · have hold : (pm.addRecord P node pri).nodes slot = pm.nodes slot :=
          Function.update_of_ne (Ne.symm hi) _ _
        rw [hold]
        exact ⟨fun h => absurd h.2 hi, fun _ => ⟨rfl, rfl⟩⟩
  | clear =>
      have hwiped : (stepPmClear P pm).pm.nodes slot = .zero := if_pos hslot
      rw [hwiped]
      exact ⟨fun _ => ⟨rfl, rfl⟩, fun h => absurd trivial h⟩
  | setEnabled handle nodes hc hnodes =>
      have hnot : ¬c.Wipes P pm slot := by
        rcases hc with rfl | rfl <;> exact id
      obtain ⟨hi, -⟩ := hnodes slot
      have hruns := congrArg StepPmNodeRecord.runs hi
      have hruntime := congrArg StepPmNodeRecord.runtimeNs hi
      exact ⟨fun h => absurd h hnot, fun _ => ⟨hruns, hruntime⟩⟩
  | refused _ _ _ _ => exact ⟨False.elim, fun _ => ⟨rfl, rfl⟩⟩
  | subscribe handle _ _ _ =>
      refine ⟨False.elim, fun _ => ?_⟩
      by_cases hi : slot = handle
      · subst hi
        simp
      · simp [hi]

/-- The visits of the record in a slot, behind a call. -/
theorem visitsOf_call (P : Platform) (s : Sys Ω) (charged : List Charge) (t : Tid) (c : ApiCall Ω)
    (slot : ℕ) :
    (c.Wipes P s.pm slot → visitsOf slot (charged ++ charges P s (.other t c)) = []) ∧
      (¬c.Wipes P s.pm slot →
        visitsOf slot (charged ++ charges P s (.other t c)) = visitsOf slot charged) := by
  cases c with
  | register node pri world =>
      by_cases hfull : s.pm.handleCounter = P.nodeLimit
      · simp [charges, ApiCall.Wipes, hfull]
      · simp only [charges, if_neg hfull, visitsOf_concat, chargeVisits, ApiCall.Wipes]
        exact ⟨fun h => if_pos h.2, fun h => if_neg fun hi => h ⟨hfull, hi⟩⟩
  | clear => simp [charges, ApiCall.Wipes, chargeVisits]
  | enable _ | disable _ | subscribe _ _ _ _ => simp [charges, ApiCall.Wipes]

/-- **The calls of other threads**: a registration and a clear wipe the counters, the others
leave them alone. -/
theorem afterCall_charged (hle : s.pm.handleCounter ≤ P.nodeLimit) (h : Charged P s.pm charged)
    (t : Tid) (c : ApiCall Ω) :
    Charged P (apiCall P s.pm c).pm (charged ++ charges P s (.other t c)) := by
  intro slot hslot
  obtain ⟨hwiped, hkept⟩ := apiCall_counters hle c hslot
  obtain ⟨hnone, hsame⟩ := visitsOf_call P s charged t c slot
  by_cases hwipes : c.Wipes P s.pm slot
  · rw [hnone hwipes]
    exact recordCharged_nil (hwiped hwipes).1 (hwiped hwipes).2
  · rw [hsame hwipes]
    exact (h slot hslot).of_same (hkept hwipes).1 (hkept hwipes).2

/-- Away from the relock nothing happens to the counters. -/
theorem charges_of_ne {p : Proc Ω} {inp : Inputs Ω} (hproc : s.proc = some p)
    (hpc : p.pc ≠ .relock) : charges P s (.proc inp) = [] := by
  rw [charges, hproc]
  dsimp only
  split
  · contradiction
  · rfl

/-- …and the thread writes no record. -/
theorem nodes_of_procStep {p : Proc Ω} {inp : Inputs Ω} (hpc : p.pc ≠ .relock)
    (hstep : procStep P s p inp = some s') : s'.pm.nodes = s.pm.nodes := by
  cases procStep_move hstep with
  | relock h _ _ => exact absurd h hpc
  | _ => rfl

/-- Behind the relock the visit has been charged to the record in its slot. -/
theorem nodes_of_relock (hon : P.instrumentation = true) {p : Proc Ω} {inp : Inputs Ω}
    (hpc : p.pc = .relock) (hstep : procStep P s p inp = some s') :
    s'.pm.nodes = Function.update s.pm.nodes p.pnode
      { s.pm.nodes p.pnode with
        runtimeNs := (s.pm.nodes p.pnode).runtimeNs + stepInstrStop P p.instr inp.cycles
        runs := (s.pm.nodes p.pnode).runs + 1 } := by
  simp only [procStep, hpc, Option.map_eq_some_iff] at hstep
  obtain ⟨m, -, rfl⟩ := hstep
  simp only [PmState.account, if_pos hon]

/-- **The work-queue thread**: the end of a visit is charged to the record in its slot, and
nothing else is. -/
theorem procStep_charged (hon : P.instrumentation = true) {p : Proc Ω} {inp : Inputs Ω}
    (h : Charged P s.pm charged) (hproc : s.proc = some p) (hstep : procStep P s p inp = some s') :
    Charged P s'.pm (charged ++ charges P s (.proc inp)) := by
  by_cases hpc : p.pc = .relock
  · simp only [charges, hproc, hpc]
    intro slot hslot
    rw [visitsOf_concat, chargeVisits, nodes_of_relock hon hpc hstep]
    by_cases hi : p.pnode = slot
    · subst hi
      rw [if_pos rfl, Function.update_self]
      exact (h _ hslot).visit ⟨p.instr, inp.cycles⟩
    · rw [if_neg hi, Function.update_of_ne (Ne.symm hi)]
      exact h slot hslot
  · rw [charges_of_ne hproc hpc, List.append_nil]
    exact h.of_same fun i => by rw [nodes_of_procStep hpc hstep]; exact ⟨rfl, rfl⟩

/-- **The invariant of the accounts.** -/
structure Accounting (P : Platform) (s : Sys Ω) (charged : List Charge) : Prop where
  sys : SysInvariant P s
  charged : Charged P s.pm charged

/-- **The step lemma of the accounts.** -/
theorem sysStep_accounting (hon : P.instrumentation = true) (h : Accounting P s charged)
    (hstep : sysStep P s l = some s') : Accounting P s' (charged ++ charges P s l) := by
  refine ⟨sysStep_invariant h.sys hstep, ?_⟩
  obtain ⟨-, hmove⟩ := sysStep_move hstep
  cases hmove with
  | process _ _ _ _ =>
      rw [charges, List.append_nil]
      exact h.charged
  | @proc inp p _ hproc _ =>
      exact procStep_charged hon h.charged hproc (procStep_of_sysStep hstep hproc)
  | other t c _ _ _ =>
      obtain ⟨regs, l, hrep⟩ := h.sys.registry
      exact afterCall_charged hrep.counter_le h.charged t c

/-- **The accounts of a run.** -/
theorem run_charged (hon : P.instrumentation = true) {labels : List (Label Ω)}
    (hrun : run (sysStep P) (Sys.init P) labels = some s) :
    Charged P s.pm (trace (sysStep P) (charges P) (Sys.init P) labels) := by
  have hinit : Accounting P (Sys.init P : Sys Ω) [] :=
    ⟨sysInvariant_init P, fun _ _ => recordCharged_nil rfl rfl⟩
  have hend := run_trace_invariant (fun _ _ _ _ hI _ hstep => sysStep_accounting hon hI hstep)
    hinit meets_true hrun
  exact hend.charged

end Charged

/-! ### Listings do not divide by zero -/

/-- **When a listing does not divide by zero**: after any run of calls and processed measurements,
exactly when every record in the list has finished a number of visits since its registration that
is not a multiple of 2^32, none included.  A chain that was registered and has not been visited is
enough. -/
theorem list_divides_iff (P : Platform) {labels : List (Label Ω)} {s : Sys Ω}
    (hrun : run (sysStep P) (Sys.init P) labels = some s) :
    stepPmList P s.pm ≠ .error .divisionByZero ↔
      (P.instrumentation = true → ∀ i ∈ s.pm.listed P,
        ¬2 ^ 32 ∣ (visitsOf i (trace (sysStep P) (charges P) (Sys.init P) labels)).length) := by
  obtain ⟨regs, l, hrep⟩ := (run_sysInvariant (sysInvariant_init P) hrun).registry
  have hnode : ∀ i ∈ s.pm.listed P, (s.pm.nodes i).node ≠ none := by
    intro i hi
    obtain ⟨-, chain, hchain⟩ := hrep.slot_of_listed hi
    exact Option.ne_none_iff_exists'.mpr ⟨chain, hchain⟩
  rw [stepPmList, listRecords_ne_divisionByZero_iff hnode]
  refine forall_congr' fun hon => forall₂_congr fun i hi => ?_
  have hi' : i < P.nodeLimit := lt_of_lt_of_le (hrep.slot_of_listed hi).1 hrep.counter_le
  rw [((run_charged hon hrun) i hi').runs, not_iff_not, ← BitVec.toNat_inj, BitVec.toNat_ofNat]
  exact (Nat.dvd_iff_mod_eq_zero).symm

/-- The build of the tests, with instrumentation. -/
def Platform.instrumented : Platform := { Platform.tests with instrumentation := true }

/-- A chain is registered and a measurement processed. -/
def visitedOnce : List (Label Unit) :=
  .other 1 (.register silentChain 1 fun _ => ()) ::
    .process 64 ⟨⟨0#32, 0#32, 0#32⟩, []⟩ false :: List.replicate 9 (.proc ⟨(), (), 1, 100#32⟩)

/-- Behind the first visit the record is listed. -/
theorem list_divides_iff_visited :
    ∃ s, run (sysStep Platform.instrumented) (Sys.init Platform.instrumented) visitedOnce = some s ∧
      stepPmList Platform.instrumented s.pm = .ok [⟨0, 1, some ⟨0, 0, 1⟩, 1⟩] ∧
      (stepPmList Platform.instrumented s.pm ≠ .error .divisionByZero ↔
        (Platform.instrumented.instrumentation = true → ∀ i ∈ s.pm.listed Platform.instrumented,
          ¬2 ^ 32 ∣ (visitsOf i (trace (sysStep Platform.instrumented)
            (charges Platform.instrumented) (Sys.init Platform.instrumented)
            visitedOnce)).length)) := by
  obtain ⟨s, hrun, hlist⟩ : ∃ s,
      run (sysStep Platform.instrumented) (Sys.init Platform.instrumented) visitedOnce = some s ∧
      stepPmList Platform.instrumented s.pm = .ok [⟨0, 1, some ⟨0, 0, 1⟩, 1⟩] := ⟨_, rfl, rfl⟩
  exact ⟨s, hrun, hlist, list_divides_iff Platform.instrumented hrun⟩

/-- **A division by zero**: a chain is registered and listed. -/
theorem list_after_registration :
    ∃ s, run (sysStep Platform.instrumented) (Sys.init Platform.instrumented)
        (visitedOnce.take 1) = some s ∧
      stepPmList Platform.instrumented s.pm = .error .divisionByZero :=
  ⟨_, rfl, rfl⟩

end StepPipeline
