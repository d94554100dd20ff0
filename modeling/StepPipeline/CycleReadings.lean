import StepPipeline.RunAccounting

/-!
# The cycle counter and the accounts

The 32-bit cycle counter is read when the visit of an enabled record begins, into a local
variable that all visits of a dispatch share, and again when the visit is finished.  Between
the two readings the registry mutex is released, and the counter may pass 2^32.

* `Reading` and `readings` — **what is to be seen** of the cycle counter, the registrations
  and the clears, without a look at the variable;
* `Account` and `accountOf` — the visits a record is to be charged for, told from the
  readings alone;
* `RuntimeAccounted` — the counters of every record are those of its account;
* `stepInstrStop_eq_iff` — the case split of `STEP_INSTR_STOP` is one cycle short of the
  elapsed ones when the counter has wrapped;
* `Timed` — the invariant: the variable holds the reading at the beginning of the visit;
* `runtime_accounted_iff` — the counters are right throughout a run exactly when every
  visit meets `ChargesElapsed`.

## An observer without the variable

The code measures with one local variable.  To say that it measures rightly one needs the readings
themselves, and they must be attributed to visits in another way than by the variable.  `readings`
notes down every reading of the counter with the record it was taken for, and the registrations
and clears in between; `accountOf` turns such a list into the visits of one record.  A visit that
began before the record was registered is not one of its visits, though the code will charge it
for it.

## Elapsed cycles

The counter has 32 bits, so the cycles of a visit are known modulo 2^32, and
`FinishedVisit.elapsed` is that difference.  The conversion to nanoseconds is a parameter of the
platform and may map two differences to one result; that is why the condition compares conversions
and not cycles.
-/

namespace StepPipeline

open LabelledRun

variable {Ω : Type}

/-! ### Readings -/

/-- What an observer of the registry and of the cycle counter notes down. -/
inductive Reading where
  /-- A chain is registered in the slot. -/
  | registered (slot : ℕ)
  /-- The registry is cleared. -/
  | cleared
  /-- The visit of the enabled record in the slot begins, and the counter reads `start`. -/
  | began (slot : ℕ) (start : BitVec 32)
  /-- It is finished, and the counter reads `stop`. -/
  | ended (slot : ℕ) (stop : BitVec 32)
  deriving DecidableEq, Repr

/-- **What is noted down of a step**: the counter is read at the beginning of the loop body
of an enabled record, and behind its relock. -/
def readings (P : Platform) (s : Sys Ω) : Label Ω → List Reading
  | .process _ _ _ => []
  | .proc inp =>
      match s.proc with
      | none => []
      | some p =>
          match p.pc with
          | .visit => if (s.pm.nodes p.pnode).enabled then [.began p.pnode inp.cycles] else []
          | .relock => [.ended p.pnode inp.cycles]
          | _ => []
  | .other _ (.register _ _ _) =>
      if s.pm.handleCounter = P.nodeLimit then [] else [.registered s.pm.handleCounter]
  | .other _ .clear => [.cleared]
  | .other _ _ => []

/-- The cycles of a visit that took less than 2^32 of them. -/
def FinishedVisit.elapsed (v : FinishedVisit) : BitVec 32 := v.stop - v.start

/-- **The account of a record**: the reading at the beginning of its visit in progress, and its
finished visits. -/
structure Account where
  began : Option (BitVec 32)
  visits : List FinishedVisit
  deriving DecidableEq, Repr

/-- A visit of the record begins. -/
def Account.begin (a : Account) (start : BitVec 32) : Account := { a with began := some start }

/-- A visit is finished.  One that began before the record was registered is none of its
own. -/
def Account.finish (a : Account) (stop : BitVec 32) : Account :=
  match a.began with
  | none => a
  | some start => ⟨none, a.visits ++ [⟨start, stop⟩]⟩

/-- The account of the record in a slot after a reading, `none` where there is no record. -/
def nextAccount (slot : ℕ) (account : Option Account) : Reading → Option Account
  | .registered i => if i = slot then some ⟨none, []⟩ else account
  | .cleared => none
  | .began i start => if i = slot then account.map (·.begin start) else account
  | .ended i stop => if i = slot then account.map (·.finish stop) else account

/-- **The account of the record in a slot**, as the readings have it. -/
def accountOf (slot : ℕ) (seen : List Reading) : Option Account :=
  seen.foldl (nextAccount slot) none

@[simp] theorem accountOf_nil (slot : ℕ) : accountOf slot [] = none := rfl

@[simp] theorem accountOf_concat (slot : ℕ) (seen : List Reading) (r : Reading) :
    accountOf slot (seen ++ [r]) = nextAccount slot (accountOf slot seen) r := by
  rw [accountOf, List.foldl_append]
  rfl

/-! ### Counters and accounts -/

/-- **The counters of a record are right**: modulo 2^32, `runs` is the number of its visits,
and `runtime_ns` the sum of what `k_cyc_to_ns_floor32` makes of their elapsed cycles. -/
structure RecordAccounted (P : Platform) (r : StepPmNodeRecord Ω) (visits : List FinishedVisit) :
    Prop where
  runs : r.runs.toNat = visits.length % 2 ^ 32
  runtimeNs :
    r.runtimeNs.toNat = (visits.map fun v => (P.cycToNs v.elapsed).toNat).sum % 2 ^ 32

/-- **The counters of every record are right**: of those in the list, each has an account. -/
def RuntimeAccounted (P : Platform) (s : PmState Ω) (seen : List Reading) : Prop :=
  ∀ slot ∈ s.listed P,
    ∃ a, accountOf slot seen = some a ∧ RecordAccounted P (s.nodes slot) a.visits

section Counters

variable {P : Platform} {r : StepPmNodeRecord Ω} {visits : List FinishedVisit}
  {start stop : BitVec 32}

/-- A sum of words is one of naturals, modulo 2^32. -/
theorem toNat_sum_map {α : Type*} (f : α → BitVec 32) (l : List α) :
    (l.map f).sum.toNat = (l.map fun a => (f a).toNat).sum % 2 ^ 32 := by
  induction l with
  | nil => rfl
  | cons a l ih =>
      rw [List.map_cons, List.map_cons, List.sum_cons, List.sum_cons, BitVec.toNat_add, ih,
        Nat.add_mod_mod]

/-- The same, of the words themselves. -/
theorem recordAccounted_iff :
    RecordAccounted P r visits ↔ r.runs = BitVec.ofNat 32 visits.length ∧
      r.runtimeNs = (visits.map fun v => P.cycToNs v.elapsed).sum := by
  rw [← BitVec.toNat_inj, ← BitVec.toNat_inj, BitVec.toNat_ofNat, toNat_sum_map]
  constructor
  · exact fun h => ⟨h.runs, h.runtimeNs⟩
  · exact fun h => ⟨h.1, h.2⟩

/-- Counters at 0 are those of no visit. -/
theorem recordAccounted_nil (hruns : r.runs = 0#32) (hruntime : r.runtimeNs = 0#32) :
    RecordAccounted P r [] :=
  recordAccounted_iff.mpr ⟨hruns, hruntime⟩

/-- **One cycle short**: what `STEP_INSTR_STOP` converts is the elapsed cycles, less one when the
counter has wrapped. -/
theorem stepInstrStop_eq_iff :
    stepInstrStop P start stop = P.cycToNs (stop - start) ↔
      (stop < start → P.cycToNs (stop - start - 1) = P.cycToNs (stop - start)) := by
  have hwrapped : 0xFFFFFFFF#32 - start + stop = stop - start - 1 := by bv_omega
  rw [stepInstrStop, hwrapped]
  by_cases hwrap : stop < start
  · rw [if_pos hwrap, forall_prop_of_true hwrap]
  · rw [if_neg hwrap]
    exact iff_of_true rfl fun h => absurd h hwrap

/-- A visit of the record that is charged as its elapsed cycles, and only such a one, leaves
the counters right. -/
theorem RecordAccounted.concat_iff (h : RecordAccounted P r visits) :
    RecordAccounted P
        { r with runtimeNs := r.runtimeNs + stepInstrStop P start stop, runs := r.runs + 1 }
        (visits ++ [⟨start, stop⟩]) ↔
      stepInstrStop P start stop = P.cycToNs (stop - start) := by
  obtain ⟨hruns, hruntime⟩ := recordAccounted_iff.mp h
  have hlength : r.runs + 1 =
      BitVec.ofNat 32 (visits ++ [(⟨start, stop⟩ : FinishedVisit)]).length := by
    rw [ofNat_length_concat, ← hruns]
  rw [recordAccounted_iff, and_iff_right hlength, List.map_append, List.sum_append, ← hruntime]
  simp [FinishedVisit.elapsed]

/-- A charge without a visit does not. -/
theorem RecordAccounted.not_of_stale (h : RecordAccounted P r visits) (ns : BitVec 32) :
    ¬RecordAccounted P { r with runtimeNs := r.runtimeNs + ns, runs := r.runs + 1 } visits := by
  intro h'
  have hruns := (recordAccounted_iff.mp h).1
  have hruns' : r.runs + 1 = BitVec.ofNat 32 visits.length := (recordAccounted_iff.mp h').1
  rw [← hruns] at hruns'
  have hone : (1 : BitVec 32) = 0 := by bv_omega
  exact absurd hone (by decide)

end Counters

/-! ### The timer -/

/-- The dispatch is at a visit of the record in the slot, and its variable holds `start`. -/
structure Proc.Times (p : Proc Ω) (slot : ℕ) (start : BitVec 32) : Prop where
  pnode : p.pnode = slot
  instr : p.instr = start
  pc : p.pc.InChain ∨ p.pc = .relock

/-- **The invariant of the readings**: the records that have an account are those in the registry,
and a visit in progress is the one of the dispatch, which has kept the reading.  It is here that
the variable and the readings are tied together. -/
structure Timed (P : Platform) (s : Sys Ω) (seen : List Reading) : Prop where
  sys : SysInvariant P s
  registered : ∀ slot, (accountOf slot seen).isSome ↔ slot < s.pm.handleCounter
  timer : ∀ slot a start, accountOf slot seen = some a → a.began = some start →
    s.fault = none → ∃ p, s.proc = some p ∧ p.Times slot start

section Timed

variable {P : Platform} {s s' : Sys Ω} {p : Proc Ω} {inp : Inputs Ω} {l : Label Ω}
  {seen : List Reading} {slot : ℕ} {a : Account} {start stop : BitVec 32}

theorem readings_of_relock (hproc : s.proc = some p) (hpc : p.pc = .relock) :
    readings P s (.proc inp) = [.ended p.pnode inp.cycles] := by
  simp only [readings, hproc, hpc]

theorem readings_of_visit (hproc : s.proc = some p) (hpc : p.pc = .visit) :
    readings P s (.proc inp) =
      if (s.pm.nodes p.pnode).enabled then [.began p.pnode inp.cycles] else [] := by
  simp only [readings, hproc, hpc]

/-- Elsewhere the counter is not read. -/
theorem readings_of_ne (hproc : s.proc = some p) (hvisit : p.pc ≠ .visit)
    (hrelock : p.pc ≠ .relock) : readings P s (.proc inp) = [] := by
  rw [readings, hproc]
  dsimp only
  split
  · contradiction
  · contradiction
  · rfl

/-- Away from the relock the work-queue thread finishes no visit. -/
theorem accountOf_proc (hproc : s.proc = some p) (slot : ℕ) (hpc : p.pc ≠ .relock) :
    (accountOf slot (seen ++ readings P s (.proc inp))).map Account.visits =
      (accountOf slot seen).map Account.visits := by
  by_cases hvisit : p.pc = .visit
  · rw [readings_of_visit hproc hvisit]
    split
    · rw [accountOf_concat, nextAccount]
      split
      · rw [Option.map_map]
        rfl
      · rfl
    · rw [List.append_nil]
  · rw [readings_of_ne hproc hvisit hpc, List.append_nil]

/-- It opens no account and closes none. -/
theorem isSome_accountOf_proc (hproc : s.proc = some p) (slot : ℕ) :
    (accountOf slot (seen ++ readings P s (.proc inp))).isSome = (accountOf slot seen).isSome := by
  by_cases hpc : p.pc = .relock
  · rw [readings_of_relock hproc hpc, accountOf_concat, nextAccount]
    split
    · exact Option.isSome_map
    · rfl
  · calc
      (accountOf slot (seen ++ readings P s (.proc inp))).isSome =
          ((accountOf slot (seen ++ readings P s (.proc inp))).map Account.visits).isSome :=
        Option.isSome_map.symm
      _ = ((accountOf slot seen).map Account.visits).isSome := by
        rw [accountOf_proc hproc slot hpc]
      _ = (accountOf slot seen).isSome := Option.isSome_map

/-- **The accounts behind a call**: one that wipes the counters leaves no visit, the others
leave the account as it is. -/
theorem accountOf_call (P : Platform) (s : Sys Ω) (seen : List Reading) (t : Tid)
    (c : ApiCall Ω) (slot : ℕ) :
    let account := accountOf slot (seen ++ readings P s (.other t c))
    (c.Wipes P s.pm slot → account = none ∨ account = some ⟨none, []⟩) ∧
      (¬c.Wipes P s.pm slot → account = accountOf slot seen) := by
  cases c with
  | register node pri world =>
      by_cases hfull : s.pm.handleCounter = P.nodeLimit
      · simp [readings, ApiCall.Wipes, hfull]
      · simp only [readings, if_neg hfull, accountOf_concat, nextAccount, ApiCall.Wipes]
        exact ⟨fun h => Or.inr (if_pos h.2), fun h => if_neg fun hi => h ⟨hfull, hi⟩⟩
  | clear => simp [readings, ApiCall.Wipes, nextAccount]
  | enable _ | disable _ | subscribe _ _ _ _ => simp [readings, ApiCall.Wipes]

/-- **The records that have an account** after a step are those in the registry. -/
theorem sysStep_registered (h : Timed P s seen) (hstep : sysStep P s l = some s') :
    ∀ slot, (accountOf slot (seen ++ readings P s l)).isSome ↔ slot < s'.pm.handleCounter := by
  intro slot
  obtain ⟨-, hmove⟩ := sysStep_move hstep
  cases hmove with
  | process _ _ _ _ =>
      rw [readings, List.append_nil]
      exact h.registered slot
  | @proc inp p _ hproc hmove =>
      rw [isSome_accountOf_proc hproc, hmove.sameRegistry.handleCounter]
      exact h.registered slot
  | other t c _ _ _ =>
      obtain ⟨regs, l, hrep⟩ := h.sys.registry
      obtain ⟨l', hrep', -⟩ := apiCall_represents hrep c
      have hcounter : (s.afterCall (apiCall P s.pm c)).pm.handleCounter =
          (registerCall P regs c).length := hrep'.counter_eq
      have hold := h.registered slot
      rw [hcounter]
      rw [hrep.counter_eq] at hold
      cases c with
      | register node pri world =>
          by_cases hfull : regs.length = P.nodeLimit
          · simpa only [readings, registerCall, hrep.counter_eq, if_pos hfull, List.append_nil]
              using hold
          · simp only [readings, registerCall, hrep.counter_eq, if_neg hfull, accountOf_concat,
              nextAccount, List.length_append, List.length_singleton]
            split
            · rename_i hi
              simp [hi]
            · rename_i hi
              rw [hold]
              omega
      | clear => simp [readings, registerCall, nextAccount]
      | enable _ | disable _ | subscribe _ _ _ _ =>
          simpa only [readings, registerCall, List.append_nil] using hold

/-- A visit in progress is the one of the dispatch in flight. -/
theorem Timed.times (h : Timed P s seen) (hfault : s.fault = none) (hproc : s.proc = some p)
    (ha : accountOf slot seen = some a) (hbegan : a.began = some start) : p.Times slot start := by
  obtain ⟨q, hq, htimes⟩ := h.timer slot a start ha hbegan hfault
  obtain rfl := Option.some.inj (hproc.symm.trans hq)
  exact htimes

@[simp] theorem Account.finish_began (a : Account) (stop : BitVec 32) :
    (a.finish stop).began = none := by
  unfold finish
  split
  · assumption
  · rfl

/-- Behind the beginning of a visit the variable holds the reading. -/
theorem began_of_visit (hslot : p.pnode ≠ slot → ∀ a, accountOf slot seen = some a →
      a.began = none)
    (ha : accountOf slot (seen ++ [.began p.pnode inp.cycles]) = some a)
    (hbegan : a.began = some start) : p.pnode = slot ∧ inp.cycles = start := by
  rw [accountOf_concat, nextAccount] at ha
  split at ha
  · rename_i hi
    obtain ⟨b, -, rfl⟩ := Option.map_eq_some_iff.mp ha
    exact ⟨hi, Option.some.inj hbegan⟩
  · rename_i hi
    rw [hslot hi a ha] at hbegan
    cases hbegan

/-- **The variable of the dispatch**: it is written when a visit begins, and kept until it is
finished. -/
theorem procStep_timer (h : Timed P s seen) (hfault : s.fault = none) (hproc : s.proc = some p)
    (hmove : ProcMove P s p inp s')
    (ha : accountOf slot (seen ++ readings P s (.proc inp)) = some a)
    (hbegan : a.began = some start) (hfault' : s'.fault = none) :
    ∃ p', s'.proc = some p' ∧ p'.Times slot start := by
  -- short of a visit none is in progress
  have hnone : ¬(p.pc.InChain ∨ p.pc = .relock) → ∀ slot a, accountOf slot seen = some a →
      a.began = none := by
    intro hpc slot a ha
    cases hbegan : a.began with
    | none => rfl
    | some start => exact absurd (h.times hfault hproc ha hbegan).pc hpc
  have hquiet : p.pc ≠ .visit → p.pc ≠ .relock → accountOf slot seen = some a := by
    intro hvisit hrelock
    rwa [readings_of_ne hproc hvisit hrelock, List.append_nil] at ha
  cases hmove with
  | crash u => cases hfault'
  | lock hpc _ _ | head hpc | tail hpc =>
      have hold := hquiet (by simp [hpc]) (by simp [hpc])
      rw [hnone (by simp [hpc, Pc.InChain]) slot a hold] at hbegan
      cases hbegan
  | chain hpc p' hsame hpc' _ _ =>
      have htimes := h.times hfault hproc (hquiet hpc.ne_visit hpc.ne_relock) hbegan
      exact ⟨p', rfl, hsame.pnode.trans htimes.pnode, hsame.instr.trans htimes.instr, .inl hpc'⟩
  | chainDone hpc p' hsame hpc' =>
      have htimes := h.times hfault hproc (hquiet hpc.ne_visit hpc.ne_relock) hbegan
      exact ⟨p', rfl, hsame.pnode.trans htimes.pnode, hsame.instr.trans htimes.instr, .inr hpc'⟩
  | skip hpc hoff =>
      rw [readings_of_visit hproc hpc, hoff] at ha
      rw [hnone (by simp [hpc, Pc.InChain]) slot a (by simpa using ha)] at hbegan
      cases hbegan
  | noMatch hpc hon _ _ _ _ =>
      rw [readings_of_visit hproc hpc, if_pos hon] at ha
      obtain ⟨hpnode, hstart⟩ :=
        began_of_visit (fun _ => hnone (by simp [hpc, Pc.InChain]) slot) ha hbegan
      exact ⟨_, rfl, hpnode, hstart, .inr rfl⟩
  | enter hpc hon _ _ _ _ _ _ =>
      rw [readings_of_visit hproc hpc, if_pos hon] at ha
      obtain ⟨hpnode, hstart⟩ :=
        began_of_visit (fun _ => hnone (by simp [hpc, Pc.InChain]) slot) ha hbegan
      exact ⟨_, rfl, hpnode, hstart, .inl trivial⟩
  | relock hpc _ _ =>
      rw [readings_of_relock hproc hpc, accountOf_concat, nextAccount] at ha
      split at ha
      · obtain ⟨b, -, rfl⟩ := Option.map_eq_some_iff.mp ha
        rw [Account.finish_began] at hbegan
        cases hbegan
      · rename_i hi
        exact absurd (h.times hfault hproc ha hbegan).pnode hi

/-- **The step lemma of the readings.** -/
theorem sysStep_timed (h : Timed P s seen) (hstep : sysStep P s l = some s') :
    Timed P s' (seen ++ readings P s l) := by
  refine ⟨sysStep_invariant h.sys hstep, sysStep_registered h hstep, ?_⟩
  intro slot a start ha hbegan hfault'
  obtain ⟨hfault, hmove⟩ := sysStep_move hstep
  cases hmove with
  | process _ _ _ hproc =>
      rw [readings, List.append_nil] at ha
      obtain ⟨q, hq, -⟩ := h.timer slot a start ha hbegan hfault
      rw [hproc] at hq
      cases hq
  | proc hproc hmove => exact procStep_timer h hfault hproc hmove ha hbegan hfault'
  | other t c _ _ _ =>
      obtain ⟨hwiped, hkept⟩ := accountOf_call P s seen t c slot
      by_cases hwipes : c.Wipes P s.pm slot
      · rcases hwiped hwipes with hnone | hnew
        · rw [hnone] at ha
          cases ha
        · rw [hnew] at ha
          cases ha
          cases hbegan
      · rw [hkept hwipes] at ha
        exact h.timer slot a start ha hbegan hfault

theorem timed_init (P : Platform) : Timed P (Sys.init P : Sys Ω) [] where
  sys := sysInvariant_init P
  registered slot := by simp [Sys.init, PmState.init]
  timer slot a start ha := by cases ha

end Timed

/-! ### Charges -/

/-- **The visit that is finished in this step is charged as its elapsed cycles**: it is one of the
record that is charged for it, and the cycle counter has not wrapped since it began, unless its
conversion does not tell the elapsed cycles from one less.  The record that is charged may have
been registered while the chain was running; then `began` has nothing for it. -/
def ChargesElapsed (P : Platform) (x : Sys Ω × List Reading) : Label Ω → Prop
  | .proc inp =>
      ∀ p a, x.1.proc = some p → p.pc = .relock → accountOf p.pnode x.2 = some a →
        ∃ start, a.began = some start ∧
          (inp.cycles < start →
            P.cycToNs (inp.cycles - start - 1) = P.cycToNs (inp.cycles - start))
  | _ => True

section Charges

variable {P : Platform} {s s' : Sys Ω} {p : Proc Ω} {inp : Inputs Ω} {l : Label Ω}
  {seen : List Reading} {slot : ℕ} {a : Account} {r r' : StepPmNodeRecord Ω}
  {visits : List FinishedVisit}

theorem RecordAccounted.of_same (h : RecordAccounted P r visits) (hruns : r'.runs = r.runs)
    (hruntime : r'.runtimeNs = r.runtimeNs) : RecordAccounted P r' visits where
  runs := by rw [hruns, h.runs]
  runtimeNs := by rw [hruntime, h.runtimeNs]

/-- An account has a slot in the array. -/
theorem Timed.slot_lt (h : Timed P s seen) (ha : accountOf slot seen = some a) :
    slot < P.nodeLimit := by
  obtain ⟨regs, l, hrep⟩ := h.sys.registry
  have hlt := (h.registered slot).mp (by rw [ha]; rfl)
  exact lt_of_lt_of_le hlt hrep.counter_le

/-- The accounts of the records in the list are all there are. -/
theorem Timed.runtimeAccounted_iff (h : Timed P s seen) :
    RuntimeAccounted P s.pm seen ↔
      ∀ slot a, accountOf slot seen = some a → RecordAccounted P (s.pm.nodes slot) a.visits := by
  obtain ⟨regs, l, hrep⟩ := h.sys.registry
  constructor
  · intro hall slot a ha
    have hlt := (h.registered slot).mp (by rw [ha]; rfl)
    obtain ⟨b, hb, hcounters⟩ := hall slot (hrep.mem_listed_iff.mpr hlt)
    obtain rfl := Option.some.inj (ha.symm.trans hb)
    exact hcounters
  · intro hall slot hslot
    have hlt := hrep.mem_listed_iff.mp hslot
    obtain ⟨a, ha⟩ := Option.isSome_iff_exists.mp ((h.registered slot).mpr hlt)
    exact ⟨a, ha, hall slot a ha⟩

/-- A call of another thread leaves the counters right. -/
theorem afterCall_accounted (h : Timed P s seen)
    (hall : ∀ slot a, accountOf slot seen = some a →
      RecordAccounted P (s.pm.nodes slot) a.visits) (t : Tid) (c : ApiCall Ω)
    (hslot : slot < P.nodeLimit)
    (ha : accountOf slot (seen ++ readings P s (.other t c)) = some a) :
    RecordAccounted P ((apiCall P s.pm c).pm.nodes slot) a.visits := by
  obtain ⟨regs, l, hrep⟩ := h.sys.registry
  obtain ⟨hzero, hsame⟩ := apiCall_counters hrep.counter_le c hslot
  obtain ⟨hwiped, hkept⟩ := accountOf_call P s seen t c slot
  by_cases hwipes : c.Wipes P s.pm slot
  · rcases hwiped hwipes with hnone | hnew
    · rw [hnone] at ha
      cases ha
    · rw [hnew] at ha
      cases ha
      exact recordAccounted_nil (hzero hwipes).1 (hzero hwipes).2
  · rw [hkept hwipes] at ha
    exact (hall slot a ha).of_same (hsame hwipes).1 (hsame hwipes).2

/-- **The end of a visit**: the counters of its record stay right exactly if it is charged as
its elapsed cycles. -/
theorem finish_accounted_iff (h : Timed P s seen) (hfault : s.fault = none)
    (hproc : s.proc = some p) (ha : accountOf p.pnode seen = some a)
    (hcounters : RecordAccounted P r a.visits) (stop : BitVec 32) :
    RecordAccounted P
        { r with runtimeNs := r.runtimeNs + stepInstrStop P p.instr stop, runs := r.runs + 1 }
        (a.finish stop).visits ↔
      ∃ start, a.began = some start ∧
        (stop < start → P.cycToNs (stop - start - 1) = P.cycToNs (stop - start)) := by
  cases hbegan : a.began with
  | none =>
      have hfinish : a.finish stop = a := by simp only [Account.finish, hbegan]
      rw [hfinish]
      exact iff_of_false (hcounters.not_of_stale _) fun ⟨_, hsome, _⟩ => by cases hsome
  | some start =>
      have hfinish : (a.finish stop).visits = a.visits ++ [⟨start, stop⟩] := by
        simp only [Account.finish, hbegan]
      rw [hfinish, (h.times hfault hproc ha hbegan).instr, hcounters.concat_iff,
        stepInstrStop_eq_iff]
      simp only [Option.some_inj, exists_eq_left']

/-- **The work-queue thread** leaves the counters right exactly if it charges the elapsed
cycles. -/
theorem procStep_accounted_iff (hon : P.instrumentation = true) (h : Timed P s seen)
    (hall : ∀ slot a, accountOf slot seen = some a →
      RecordAccounted P (s.pm.nodes slot) a.visits) (hfault : s.fault = none)
    (hproc : s.proc = some p) (hstep : procStep P s p inp = some s') :
    (∀ slot a, accountOf slot (seen ++ readings P s (.proc inp)) = some a →
        RecordAccounted P (s'.pm.nodes slot) a.visits) ↔
      ChargesElapsed P (s, seen) (.proc inp) := by
  by_cases hpc : p.pc = .relock
  · have hcond : ChargesElapsed P (s, seen) (.proc inp) ↔
        ∀ a, accountOf p.pnode seen = some a → ∃ start, a.began = some start ∧
          (inp.cycles < start →
            P.cycToNs (inp.cycles - start - 1) = P.cycToNs (inp.cycles - start)) := by
      constructor
      · exact fun hstep a => hstep p a hproc hpc
      · intro hrecord q a hq _
        obtain rfl := Option.some.inj (hproc.symm.trans hq)
        exact hrecord a
    rw [hcond, readings_of_relock hproc hpc, nodes_of_relock hon hpc hstep]
    simp only [accountOf_concat, nextAccount]
    constructor
    · intro hafter a ha
      have hnext := hafter p.pnode (a.finish inp.cycles) (by rw [if_pos rfl, ha]; rfl)
      rw [Function.update_self] at hnext
      exact (finish_accounted_iff h hfault hproc ha (hall _ a ha) inp.cycles).mp hnext
    · intro hrecord slot b hb
      by_cases hi : p.pnode = slot
      · subst hi
        rw [if_pos rfl, Option.map_eq_some_iff] at hb
        obtain ⟨a, ha, rfl⟩ := hb
        rw [Function.update_self]
        exact (finish_accounted_iff h hfault hproc ha (hall _ a ha) inp.cycles).mpr (hrecord a ha)
      · rw [if_neg hi] at hb
        rw [Function.update_of_ne (Ne.symm hi)]
        exact hall slot b hb
  · refine iff_of_true ?_ ?_
    · intro slot b hb
      have hvisits : some b.visits = (accountOf slot seen).map Account.visits := by
        rw [← accountOf_proc hproc slot hpc, hb, Option.map_some]
      obtain ⟨a, ha, hsame⟩ := Option.map_eq_some_iff.mp hvisits.symm
      rw [nodes_of_procStep hpc hstep, ← hsame]
      exact hall slot a ha
    · intro q a hq hqpc
      obtain rfl := Option.some.inj (hproc.symm.trans hq)
      exact absurd hqpc hpc

/-- **The step lemma of the counters.** -/
theorem sysStep_accounted_iff (hon : P.instrumentation = true) (h : Timed P s seen)
    (hacc : RuntimeAccounted P s.pm seen) (hstep : sysStep P s l = some s') :
    RuntimeAccounted P s'.pm (seen ++ readings P s l) ↔ ChargesElapsed P (s, seen) l := by
  have h' := sysStep_timed h hstep
  have hall := h.runtimeAccounted_iff.mp hacc
  rw [h'.runtimeAccounted_iff]
  obtain ⟨hfault, hmove⟩ := sysStep_move hstep
  cases hmove with
  | process _ _ _ _ =>
      rw [readings, List.append_nil]
      exact iff_of_true hall trivial
  | proc hproc _ =>
      exact procStep_accounted_iff hon h hall hfault hproc (procStep_of_sysStep hstep hproc)
  | other t c _ _ _ =>
      refine iff_of_true (fun slot a ha => ?_) trivial
      exact afterCall_accounted h hall t c (h'.slot_lt ha) ha

end Charges

/-! ### Whole runs -/

/-- What holds as long as every visit is charged as its elapsed cycles. -/
structure RightlyCharged (P : Platform) (x : Sys Ω × List Reading) : Prop where
  timed : Timed P x.1 x.2
  accounted : RuntimeAccounted P x.1.pm x.2

section Run

variable {P : Platform} {s : Sys Ω} {labels : List (Label Ω)}

theorem rightlyCharged_init (P : Platform) : RightlyCharged P ((Sys.init P : Sys Ω), []) where
  timed := timed_init P
  accounted := (timed_init P).runtimeAccounted_iff.mpr fun _ _ ha => by cases ha

/-- **When the counters are right**: in every state that a run of calls and processed
measurements passes through, the counters of every record in the list are, modulo 2^32, the
number of its visits since its registration and the sum of the conversions of their elapsed
cycles, exactly when every visit that is finished is charged as its elapsed cycles. -/
theorem runtime_accounted_iff (hon : P.instrumentation = true)
    (hrun : run (sysStep P) (Sys.init P) labels = some s) :
    Always (withTrace (sysStep P) (readings P)) (fun x => RuntimeAccounted P x.1.pm x.2)
        (Sys.init P, []) labels ↔
      Meets (withTrace (sysStep P) (readings P)) (ChargesElapsed P) (Sys.init P, []) labels := by
  have hrun' : run (withTrace (sysStep P) (readings P)) (Sys.init P, []) labels =
      some (s, trace (sysStep P) (readings P) (Sys.init P) labels) := by
    rw [run_withTrace, hrun]
    rfl
  refine always_iff_meets (fun _ h => RightlyCharged.accounted h) ?_ ?_
    (rightlyCharged_init P) hrun'
  · rintro ⟨s, seen⟩ l ⟨s', seen'⟩ ⟨h, hacc⟩ hstep hcharges
    obtain ⟨hstep, rfl⟩ := withTrace_eq_some.mp hstep
    exact ⟨sysStep_timed h hstep, (sysStep_accounted_iff hon h hacc hstep).mpr hcharges⟩
  · rintro ⟨s, seen⟩ l ⟨s', seen'⟩ ⟨h, hacc⟩ hstep hacc'
    obtain ⟨hstep, rfl⟩ := withTrace_eq_some.mp hstep
    exact (sysStep_accounted_iff hon h hacc hstep).mp hacc'

/-- A visit during which the counter stands still. -/
theorem runtime_accounted_iff_visited :
    ∃ s, run (sysStep Platform.instrumented) (Sys.init Platform.instrumented) visitedOnce = some s ∧
      (Always (withTrace (sysStep Platform.instrumented) (readings Platform.instrumented))
          (fun x => RuntimeAccounted Platform.instrumented x.1.pm x.2)
          (Sys.init Platform.instrumented, []) visitedOnce ↔
        Meets (withTrace (sysStep Platform.instrumented) (readings Platform.instrumented))
          (ChargesElapsed Platform.instrumented) (Sys.init Platform.instrumented, [])
          visitedOnce) :=
  have hrun : run (sysStep Platform.instrumented) (Sys.init Platform.instrumented) visitedOnce =
    some _ := rfl
  ⟨_, hrun, runtime_accounted_iff rfl hrun⟩

/-- A chain is registered, and visited while the counter goes from its maximum to 0. -/
def wrappedVisit : List (Label Unit) :=
  let tick (cycles : BitVec 32) : Label Unit := .proc ⟨(), (), 1, cycles⟩
  [.other 1 (.register silentChain 1 fun _ => ()),
    .process 64 ⟨⟨0#32, 0#32, 0#32⟩, []⟩ false, tick 0, tick 0, tick 0xFFFFFFFF] ++
    List.replicate 5 (tick 0)

/-- **A cycle is lost**: the visit took one cycle, and is charged as none. -/
theorem wrapped_visit_loses_cycle :
    ∃ s seen, run (withTrace (sysStep Platform.instrumented) (readings Platform.instrumented))
        (Sys.init Platform.instrumented, []) wrappedVisit = some (s, seen) ∧
      seen = [.registered 0, .began 0 0xFFFFFFFF#32, .ended 0 0#32] ∧
      (s.pm.nodes 0).runtimeNs = 0#32 ∧
      ¬RuntimeAccounted Platform.instrumented s.pm seen := by
  refine ⟨_, _, rfl, rfl, rfl, fun h => ?_⟩
  obtain ⟨a, ha, hcounters⟩ := h 0 (by decide)
  obtain rfl : (⟨none, [⟨0xFFFFFFFF#32, 0#32⟩]⟩ : Account) = a := Option.some.inj ha
  exact absurd hcounters.runtimeNs (by decide)

end Run

end StepPipeline
