import StepPipeline.Library.CriticalSection
import StepPipeline.Control

/-!
# The locked sections of a dispatch, step by step

`step_pm_process` goes through its loop under `step_pm_reg_access`, but `step_pm_enable_node` and
`step_pm_disable_node` do not wait for the lock.  Between the test of `enabled` and the release
of the lock, in the middle of an evaluation, they may come in; the loop body as one step does
not show that.

* `SectionPc` — where the work-queue thread stands in a section it holds the lock in;
* `fineStep` — the system in which each access of such a section is a step of its own;
* `Within` — how far a section has come, in terms of the step that it is elsewhere;
* `fineSections` — the sections are `Sections`;
* `locked_sections_atomic` — **one step for each section is enough**: the same states are
  reached, by the same dispatches and the same calls with the same answers, and the same
  faults occur.

## What a section is

There are three of them.  The loop body on an enabled record, from the test of `enabled` to the
release of the lock: `step_cache_check`, the evaluation, the `matched_handler`,
`step_cache_add` and the release are a step each, every handler running to its end in one.  The
end of the loop body behind the lock taken again: the instrumentation, then the loop going on.
And the end of the dispatch: what is left when `step_sp_free` has returned, the release of the
lock and the return.  The test itself, taking the lock, and `step_sp_free` are the first
access of their section, so a section is entered by an access and not by an intention: who
waits has not entered.

That matters for the last one.  `step_sp_free` waits for `step_sp_alloc_mtx`, which this system
does not have (`Pipeline` has it, and may have lost it); that it returns is a step, and that it
has not returned yet, or never will, is that the step is not taken.  The sections come to an end
once entered; a dispatch in front of `step_sp_free` need not, and keeps the lock.

## What carries the proof

No access of a section reads an `enabled` flag (`insideStep_withFlags`), and a call that does
not wait for the lock writes such a flag or nothing at all (`sysStep_flags`).  So what the
others do in a section commutes with what is left of it, and is put off until it is over.  The
calls that take the lock are not in the way: in a section they wait.

A flag is taken to be written in one access: it is the only bit field of its storage unit, and
without the lock only `step_pm_enable_node` and `step_pm_disable_node` write it.
-/

namespace StepPipeline

open IntrusiveList LabelledRun

variable {Ω : Type}

/-! ### The steps of a section -/

/-- Where the work-queue thread stands in a section, with the variables `n` and `match`.  They are
locals of `step_pm_process` that do not outlive a section, so they are no part of `Proc`. -/
inductive SectionPc (Ω : Type) where
  /-- Behind the test of `enabled`, before `step_cache_check`. -/
  | check (n : Option (StepNodeChain Ω))
  /-- Before the `evaluate_handler` or the filter chain. -/
  | evaluate (n : Option (StepNodeChain Ω))
  /-- Before the `matched_handler`. -/
  | matched (chain : StepNodeChain Ω) (value : ℤ)
  /-- Before `step_cache_add`. -/
  | add (chain : StepNodeChain Ω) (value : ℤ)
  /-- Before the lock is released. -/
  | unlock (n : Option (StepNodeChain Ω)) (value : ℤ)
  /-- Behind the lock at the end of the loop body, before the instrumentation. -/
  | account
  /-- Before the loop goes on. -/
  | next
  /-- Behind `step_sp_free`, before the lock is released and `step_pm_process` returns. -/
  | release

/-- The system, and the section the work-queue thread is in, if it is in one.  The program counter
of the dispatch is the one the section was entered at: it moves on with its last step, so that
`sys` outside of a section is the state of the system in which the section is one step. -/
structure FineSys (Ω : Type) where
  sys : Sys Ω
  inside : Option (SectionPc Ω)

/-- Outside of a section. -/
def Sys.outside (s : Sys Ω) : FineSys Ω := ⟨s, none⟩

/-- **One step in a section**: the accesses of `visitStep`, of the end of the loop body and of the
end of the dispatch, one at a time.  Each has inputs of its own: the clock and the world may have
moved on since the one before.

No step of a section waits.  The last one of the dispatch is behind `step_sp_free`: what it has
left to do is `k_mutex_unlock` and `return`. -/
def insideStep (P : Platform) (s : Sys Ω) (p : Proc Ω) (inp : Inputs Ω) :
    SectionPc Ω → FineSys Ω
  | .check n =>
      let p : Proc Ω := { p with instr := inp.cycles }
      if P.filterCache then
        let (cached, result, cache) := stepCacheCheck s.pm.cache p.mes.header.filterBits
          (s.pm.nodes p.pnode).handle inp.uptime
        ⟨{ s with pm := { s.pm with cache := cache }, proc := some p },
          some (if cached then .unlock n result else .evaluate n)⟩
      else ⟨{ s with proc := some p }, some (.evaluate n)⟩
  | .evaluate n =>
      match n with
      | none => (s.crash .nullDeref).outside
      | some chain =>
        match evaluateFilter chain.head p.mes p.mesAddr (s.pm.nodes p.pnode).handle p.rc
          inp.world with
        | .error u => (s.crash u).outside
        | .ok v =>
            ⟨{ s with
                log := s.log ++ v.events
                proc := some { p with rc := v.rc, mes := v.mes } },
              some (.matched chain v.value)⟩
  | .matched chain value =>
      let v := applyMatched chain.head p.mesAddr (s.pm.nodes p.pnode).handle inp.world
        ⟨value, p.rc, p.mes, []⟩
      ⟨{ s with log := s.log ++ v.events, proc := some { p with mes := v.mes } },
        some (if P.filterCache then .add chain v.value else .unlock (some chain) v.value)⟩
  | .add chain value =>
      match stepCacheAdd s.pm.cache p.mes.header.filterBits (s.pm.nodes p.pnode).handle value
        inp.uptime p.mes with
      | .error u => (s.crash u).outside
      | .ok cache =>
          ⟨{ s with pm := { s.pm with cache := cache } }, some (.unlock (some chain) value)⟩
  | .unlock n value =>
      let unlocked : Sys Ω :=
        { s with
          regAccess := s.regAccess.unlock workQueueTid
          log := s.log ++ [.verdict p.pnode value] }
      if value = 0 then Sys.outside { unlocked with proc := some { p with pc := .relock } }
      else
        match n with
        | none => (s.crash .nullDeref).outside
        | some chain =>
            Sys.outside
              { unlocked with
                log := unlocked.log ++ [.execute p.pnode]
                proc := some
                  { p with
                    under := ⟨(s.pm.nodes p.pnode).handle, s.pm.epoch⟩
                    pc := .call .start 0 chain.head chain.rest } }
  | .account => ⟨{ s with pm := s.pm.account P p.pnode p.instr inp.cycles }, some .next⟩
  | .next => Sys.outside { s with proc := some (p.goOn s.pm.snode p.tmp) }
  | .release =>
      Sys.outside
        { s with
          log := s.log ++ [.returned p.rc]
          regAccess := s.regAccess.unlock workQueueTid
          proc := none }

/-- One step of the work-queue thread outside of a section, or into one.  At `.tail` it is
`step_sp_free` returning, or the branch around it: the thread has the lock there and is in front
of the section, waiting for `step_sp_alloc_mtx` as long as the step is not taken. -/
def outsideStep (P : Platform) (s : Sys Ω) (p : Proc Ω) (inp : Inputs Ω) :
    Option (FineSys Ω) :=
  match p.pc with
  | .visit =>
      let r := s.pm.nodes p.pnode
      if r.enabled then
        some ⟨{ s with log := s.log ++ [.visit p.pnode true] }, some (.check r.node)⟩
      else (procStep P s p inp).map Sys.outside
  | .relock =>
      (s.regAccess.lock workQueueTid).map fun m => ⟨{ s with regAccess := m }, some .account⟩
  | .tail =>
      some ⟨{ s with log := s.log ++ if p.free then [.free p.mesAddr] else [] }, some .release⟩
  | _ => (procStep P s p inp).map Sys.outside

/-- **One step of the system**, with the sections step by step.  The others take the steps they
take elsewhere: a call that wants the lock finds it taken in a section, and one that does not
comes in. -/
def fineStep (P : Platform) (x : FineSys Ω) (l : Label Ω) : Option (FineSys Ω) :=
  if x.sys.fault ≠ none then none
  else
    match l with
    | .proc inp =>
        match x.sys.proc with
        | none => none
        | some p =>
            match x.inside with
            | none => outsideStep P x.sys p inp
            | some i => some (insideStep P x.sys p inp i)
    | l => (sysStep P x.sys l).map fun s => ⟨s, x.inside⟩

/-! ### What the others do meanwhile -/

/-- Enabled flags are written. -/
def PmState.withFlags (g : ℕ → Bool → Bool) (pm : PmState Ω) : PmState Ω :=
  { pm with nodes := fun i => { pm.nodes i with enabled := g i (pm.nodes i).enabled } }

def Sys.withFlags (g : ℕ → Bool → Bool) (s : Sys Ω) : Sys Ω :=
  { s with pm := s.pm.withFlags g }

def FineSys.withFlags (g : ℕ → Bool → Bool) (x : FineSys Ω) : FineSys Ω :=
  { x with sys := x.sys.withFlags g }

section Flags

variable {P : Platform} {s s' : Sys Ω} {g : ℕ → Bool → Bool}

theorem account_withFlags (pm : PmState Ω) (slot : ℕ) (t stop : BitVec 32) :
    (pm.withFlags g).account P slot t stop = (pm.account P slot t stop).withFlags g := by
  simp only [PmState.account, apply_ite (PmState.withFlags g)]
  refine ite_congr rfl (fun _ => ?_) fun _ => rfl
  refine congrArg (fun nodes => ({ pm with nodes := nodes } : PmState Ω)) (funext fun i => ?_)
  by_cases hi : i = slot
  · subst hi
    simp only [Function.update_self]
    rfl
  · simp only [Function.update_of_ne hi]
    rfl

/-- **No step of a section reads an enabled flag.** This is the fact about the source that the
reduction rests on: the flag of the record is tested before the section is entered, and the flags
of other records are tested in their own visits. -/
theorem insideStep_withFlags (p : Proc Ω) (inp : Inputs Ω) (i : SectionPc Ω) :
    insideStep P (s.withFlags g) p inp i = (insideStep P s p inp i).withFlags g := by
  have hhandle : ((s.withFlags g).pm.nodes p.pnode).handle = (s.pm.nodes p.pnode).handle := rfl
  have hcache : (s.withFlags g).pm.cache = s.pm.cache := rfl
  cases i with
  | check n =>
      simp only [insideStep, apply_ite (FineSys.withFlags g)]
      rfl
  | evaluate n =>
      cases n with
      | none => rfl
      | some chain =>
          simp only [insideStep, hhandle]
          cases evaluateFilter chain.head p.mes p.mesAddr (s.pm.nodes p.pnode).handle p.rc
            inp.world <;> rfl
  | add chain value =>
      simp only [insideStep, hhandle, hcache]
      cases stepCacheAdd s.pm.cache p.mes.header.filterBits (s.pm.nodes p.pnode).handle value
        inp.uptime p.mes <;> rfl
  | unlock n value =>
      simp only [insideStep, apply_ite (FineSys.withFlags g)]
      refine ite_congr rfl (fun _ => rfl) fun _ => ?_
      cases n <;> rfl
  | account =>
      exact congrArg (fun pm => (⟨{ s with pm := pm }, some .next⟩ : FineSys Ω))
        (account_withFlags s.pm p.pnode p.instr inp.cycles)
  | matched | next | release => rfl

/-- Writing one flag, or none. -/
theorem withFlags_one (pm : PmState Ω) (handle : ℕ) (on : Bool) :
    pm.withFlags (fun i b => if i = handle then on else b) =
      { pm with nodes :=
          Function.update pm.nodes handle { pm.nodes handle with enabled := on } } := by
  refine congrArg (fun nodes => ({ pm with nodes := nodes } : PmState Ω)) (funext fun i => ?_)
  by_cases hi : i = handle
  · subst hi
    rw [Function.update_self]
    simp
  · rw [Function.update_of_ne hi]
    simp [hi]

/-- **A call that does not wait for the lock** writes a flag or fails, and does so in every state
with as many handles given out.  It reads nothing else, as its only check is the one against the
handle counter. -/
theorem sysStep_flags {t : Tid} {c : ApiCall Ω} (hlocks : ¬c.locks)
    (h : sysStep P s (.other t c) = some s') :
    (∃ g, ∀ r : Sys Ω, r.fault = none → r.pm.handleCounter = s.pm.handleCounter →
      sysStep P r (.other t c) = some (r.withFlags g) ∧
        answers P r (.other t c) = answers P s (.other t c)) ∨
    ∃ u, ∀ r : Sys Ω, r.fault = none → r.pm.handleCounter = s.pm.handleCounter →
      ∃ r', sysStep P r (.other t c) = some r' ∧ r'.fault = some u := by
  obtain ⟨-, hmove⟩ := sysStep_move h
  cases hmove with
  | other _ _ ht _ _ =>
      have hset : ∃ on handle, ∀ pm, apiCall P pm c = stepPmSetEnabled P pm on handle ∧
          c.heapOk pm = true := by
        cases c with
        | enable handle => exact ⟨true, handle, fun _ => ⟨rfl, rfl⟩⟩
        | disable handle => exact ⟨false, handle, fun _ => ⟨rfl, rfl⟩⟩
        | register | clear | subscribe => exact absurd rfl hlocks
      obtain ⟨on, handle, hset⟩ := hset
      have hstep : ∀ r : Sys Ω, r.fault = none → sysStep P r (.other t c) =
          some (r.afterCall (stepPmSetEnabled P r.pm on handle)) := by
        intro r hr
        simp [sysStep, hr, ht, hlocks, (hset r.pm).1, (hset r.pm).2]
      have hret : ∀ (r : Sys Ω) (g : ℕ → Bool → Bool) (rc : ℤ), r.fault = none →
          r.afterCall (Outcome.ret (r.pm.withFlags g) rc) = r.withFlags g := by
        intro r g rc hr
        simp only [Sys.afterCall, Outcome.ret, Sys.withFlags, List.append_nil]
        rw [← hr]
      -- refused: no flag is changed, which is the identity as a map of flags
      by_cases hinvalid : s.pm.handleCounter < handle
      · refine Or.inl ⟨fun _ b => b, fun r hr hcounter => ?_⟩
        have hcall : ∀ pm : PmState Ω, pm.handleCounter = s.pm.handleCounter →
            stepPmSetEnabled P pm on handle = Outcome.ret pm negEinval := by
          intro pm hpm
          rw [stepPmSetEnabled, if_pos (hpm ▸ hinvalid)]
        rw [hstep r hr, hcall r.pm hcounter, answers, answers, (hset r.pm).1, (hset s.pm).1,
          hcall r.pm hcounter, hcall s.pm rfl]
        exact ⟨congrArg some (hret r (fun _ b => b) negEinval hr), rfl⟩
      · by_cases hbounds : P.nodeLimit ≤ handle
        · refine Or.inr ⟨.outOfBounds, fun r hr hcounter => ⟨_, hstep r hr, ?_⟩⟩
          rw [stepPmSetEnabled, if_neg (hcounter ▸ hinvalid), if_pos hbounds]
          rfl
        · refine Or.inl ⟨fun i b => if i = handle then on else b, fun r hr hcounter => ?_⟩
          have hcall : ∀ pm : PmState Ω, pm.handleCounter = s.pm.handleCounter →
              stepPmSetEnabled P pm on handle =
                Outcome.ret (pm.withFlags fun i b => if i = handle then on else b) 0 := by
            intro pm hpm
            rw [stepPmSetEnabled, if_neg (hpm ▸ hinvalid), if_neg hbounds, withFlags_one]
          rw [hstep r hr, hcall r.pm hcounter, answers, answers, (hset r.pm).1, (hset s.pm).1,
            hcall r.pm hcounter, hcall s.pm rfl]
          exact ⟨congrArg some (hret r _ 0 hr), rfl⟩

end Flags

/-! ### How far a section has come -/

/-- The table behind a `step_cache_check` that has found nothing, or has not been made.  A check
that misses leaves the same table at whatever time it is made, since only a hit stores the clock. -/
def Missed (P : Platform) (s : Sys Ω) (p : Proc Ω) (cache : StepCache) : Prop :=
  if P.filterCache then
    ∀ uptime, stepCacheCheck s.pm.cache p.mes.header.filterBits (s.pm.nodes p.pnode).handle
      uptime = (false, 0, cache)
  else cache = s.pm.cache

/-- **How far a section has come**: from `s`, as far as this state, through the step that the
work-queue thread takes elsewhere with the inputs `inp`. -/
inductive Within (P : Platform) (s : Sys Ω) (p : Proc Ω) (inp : Inputs Ω) :
    Sys Ω → SectionPc Ω → Prop
  | check (hpc : p.pc = .visit) (hon : (s.pm.nodes p.pnode).enabled = true) :
      Within P s p inp { s with log := s.log ++ [.visit p.pnode true] }
        (.check (s.pm.nodes p.pnode).node)
  | evaluate (hpc : p.pc = .visit) (hon : (s.pm.nodes p.pnode).enabled = true)
      (cache : StepCache) (hmissed : Missed P s p cache) :
      Within P s p inp
        { s with
          pm := { s.pm with cache := cache }
          log := s.log ++ [.visit p.pnode true]
          proc := some { p with instr := inp.cycles } }
        (.evaluate (s.pm.nodes p.pnode).node)
  | matched (hpc : p.pc = .visit) (hon : (s.pm.nodes p.pnode).enabled = true)
      (cache : StepCache) (hmissed : Missed P s p cache) (chain : StepNodeChain Ω)
      (hnode : (s.pm.nodes p.pnode).node = some chain) (v : Verdict)
      (hv : evaluateFilter chain.head p.mes p.mesAddr (s.pm.nodes p.pnode).handle p.rc
        inp.world = .ok v) :
      Within P s p inp
        { s with
          pm := { s.pm with cache := cache }
          log := s.log ++ [.visit p.pnode true] ++ v.events
          proc := some { p with instr := inp.cycles, rc := v.rc, mes := v.mes } }
        (.matched chain v.value)
  | add (hpc : p.pc = .visit) (hon : (s.pm.nodes p.pnode).enabled = true)
      (hcache : P.filterCache = true) (cache : StepCache) (hmissed : Missed P s p cache)
      (chain : StepNodeChain Ω) (hnode : (s.pm.nodes p.pnode).node = some chain) (v : Verdict)
      (hv : evaluateRecord (s.pm.nodes p.pnode) p.mes p.mesAddr p.rc inp = .ok v) :
      Within P s p inp
        { s with
          pm := { s.pm with cache := cache }
          log := s.log ++ [.visit p.pnode true] ++ v.events
          proc := some { p with instr := inp.cycles, rc := v.rc, mes := v.mes } }
        (.add chain v.value)
  | unlock (hpc : p.pc = .visit) (hon : (s.pm.nodes p.pnode).enabled = true)
      (cache : StepCache) (v : Verdict)
      (hv : lookupVerdict P s.pm.cache (s.pm.nodes p.pnode) p.mes p.mesAddr p.rc inp =
        .ok (v, cache)) :
      Within P s p inp
        { s with
          pm := { s.pm with cache := cache }
          log := s.log ++ [.visit p.pnode true] ++ v.events
          proc := some { p with instr := inp.cycles, rc := v.rc, mes := v.mes } }
        (.unlock (s.pm.nodes p.pnode).node v.value)
  | account (hpc : p.pc = .relock) (m : KMutex)
      (hm : s.regAccess.lock workQueueTid = some m) :
      Within P s p inp { s with regAccess := m } .account
  | next (hpc : p.pc = .relock) (m : KMutex) (hm : s.regAccess.lock workQueueTid = some m) :
      Within P s p inp
        { s with regAccess := m, pm := s.pm.account P p.pnode p.instr inp.cycles } .next
  | release (hpc : p.pc = .tail) :
      Within P s p inp
        { s with log := s.log ++ if p.free then [.free p.mesAddr] else [] } .release

/-- The inputs, when the step in the section has read `inp'`.  The one step of the system has a
single reading for the whole section; it is put together from what the steps of the section have
read, each of them at its own time. -/
def SectionPc.take (inp inp' : Inputs Ω) : SectionPc Ω → Inputs Ω
  | .check _ => { inp with uptime := inp'.uptime, cycles := inp'.cycles }
  | .evaluate _ => { inp with world := inp'.world }
  | .matched _ _ => { inp with world' := inp'.world }
  | .add _ _ => { inp with uptime := inp'.uptime }
  | .account => { inp with cycles := inp'.cycles }
  | .unlock _ _ | .next | .release => inp

/-- What the step in the section is to read. -/
def SectionPc.give (inp : Inputs Ω) : SectionPc Ω → Inputs Ω
  | .matched _ _ => { inp with world := inp.world' }
  | _ => inp

/-- How many steps are left at most. -/
def SectionPc.left : SectionPc Ω → ℕ
  | .check _ => 5
  | .evaluate _ => 4
  | .matched _ _ => 3
  | .add _ _ | .account => 2
  | .unlock _ _ | .next | .release => 1

theorem SectionPc.take_give (inp : Inputs Ω) (i : SectionPc Ω) : i.take inp (i.give inp) = inp := by
  cases i <;> rfl

/-- **What a step in a section leads to**: the section goes on, or it was the step with the inputs
`inp`.  In the third case both end with the same fault, possibly in different states: behind a
fault nothing is compared. -/
inductive Advance (P : Platform) (s : Sys Ω) (p : Proc Ω) (inp : Inputs Ω) (i : SectionPc Ω) :
    FineSys Ω → Prop
  | on {x : Sys Ω} {j : SectionPc Ω} (hfault : x.fault = none) (hwithin : Within P s p inp x j)
      (hlt : j.left < i.left) : Advance P s p inp i ⟨x, some j⟩
  | out {s' : Sys Ω} (hstep : sysStep P s (.proc inp) = some s') (hfault : s'.fault = none) :
      Advance P s p inp i s'.outside
  | crash {x s' : Sys Ω} {u : UndefinedBehaviour} (hstep : sysStep P s (.proc inp) = some s')
      (hx : x.fault = some u) (hs' : s'.fault = some u) : Advance P s p inp i x.outside

/-- The `matched_handler` and the calls before it. -/
theorem applyMatched_bare (n : StepNode Ω) (mesAddr handle : ℕ) (world : Ω) (v : Verdict) :
    applyMatched n mesAddr handle world v =
      let w := applyMatched n mesAddr handle world ⟨v.value, v.rc, v.mes, []⟩
      ⟨w.value, v.rc, w.mes, v.events ++ w.events⟩ := by
  obtain ⟨value, rc, mes, events⟩ := v
  unfold applyMatched
  cases n.callbacks.matchedHandler with
  | none => simp
  | some f => by_cases hzero : value = 0 <;> simp [hzero]

section Within

variable {P : Platform} {s x : Sys Ω} {p q : Proc Ω} {inp : Inputs Ω} {i : SectionPc Ω}
  {cache : StepCache} {v : Verdict} {u : UndefinedBehaviour}

/-- A lookup finds something, or finds nothing at whatever time. -/
theorem stepCacheCheck_cases (c : StepCache) (filter : BitVec 32) (handle : ℕ) (uptime : ℤ) :
    (∃ c', ∀ uptime, stepCacheCheck c filter handle uptime = (false, 0, c')) ∨
      ∃ result c', stepCacheCheck c filter handle uptime = (true, result, c') := by
  unfold stepCacheCheck
  cases c.recs.findIdx? (StepCacheRec.keyed filter handle) with
  | none => exact Or.inl ⟨_, fun _ => rfl⟩
  | some k => exact Or.inr ⟨_, _, rfl⟩

theorem lookup_missed_error (hmissed : Missed P s p cache)
    (hv : evaluateRecord (s.pm.nodes p.pnode) p.mes p.mesAddr p.rc inp = .error u) :
    lookupVerdict P s.pm.cache (s.pm.nodes p.pnode) p.mes p.mesAddr p.rc inp = .error u := by
  unfold Missed at hmissed
  unfold lookupVerdict
  split at hmissed
  · rename_i hon
    simp only [hon, if_true, hmissed, hv]
    rfl
  · rename_i hoff
    simp only [hoff, hv]
    rfl

theorem lookup_missed_off (hmissed : Missed P s p cache) (hoff : P.filterCache = false)
    (hv : evaluateRecord (s.pm.nodes p.pnode) p.mes p.mesAddr p.rc inp = .ok v) :
    lookupVerdict P s.pm.cache (s.pm.nodes p.pnode) p.mes p.mesAddr p.rc inp =
      .ok (v, cache) := by
  rw [Missed, hoff] at hmissed
  obtain rfl : cache = s.pm.cache := hmissed
  rw [lookupVerdict_off hoff, hv]
  rfl

theorem lookup_missed_on (hmissed : Missed P s p cache) (hon : P.filterCache = true)
    (hv : evaluateRecord (s.pm.nodes p.pnode) p.mes p.mesAddr p.rc inp = .ok v) :
    lookupVerdict P s.pm.cache (s.pm.nodes p.pnode) p.mes p.mesAddr p.rc inp =
      (stepCacheAdd cache v.mes.header.filterBits (s.pm.nodes p.pnode).handle v.value
        inp.uptime v.mes).map fun c => (v, c) := by
  rw [Missed, hon] at hmissed
  have hcheck : ∀ uptime, stepCacheCheck s.pm.cache p.mes.header.filterBits
      (s.pm.nodes p.pnode).handle uptime = (false, 0, cache) := hmissed
  unfold lookupVerdict
  simp only [hon, if_true, hcheck, hv]
  rfl

theorem sysStep_loopBody (hfault : s.fault = none) (hproc : s.proc = some p) (hpc : p.pc = .visit)
    (inp : Inputs Ω) : sysStep P s (.proc inp) = some (visitStep P s p inp) := by
  simp [sysStep, hfault, hproc, procStep, hpc]

/-- The loop body ends with a fault of the evaluation. -/
theorem sysStep_loopBody_error (hfault : s.fault = none) (hproc : s.proc = some p)
    (hpc : p.pc = .visit) (hon : (s.pm.nodes p.pnode).enabled = true)
    (hv : lookupVerdict P s.pm.cache (s.pm.nodes p.pnode) p.mes p.mesAddr p.rc inp = .error u) :
    sysStep P s (.proc inp) = some (s.crash u) := by
  rw [sysStep_loopBody hfault hproc hpc]
  simp [visitStep, hon, hv]

/-- Before `step_cache_check`: a record is found, or the evaluation is next. -/
theorem advance_check (hfault : s.fault = none) (hpc : p.pc = .visit)
    (hon : (s.pm.nodes p.pnode).enabled = true) (inp' : Inputs Ω) :
    Advance P s p { inp with uptime := inp'.uptime, cycles := inp'.cycles }
      (.check (s.pm.nodes p.pnode).node)
      (insideStep P { s with log := s.log ++ [.visit p.pnode true] } p inp'
        (.check (s.pm.nodes p.pnode).node)) := by
  cases hcache : P.filterCache with
  | false =>
      have hmissed : Missed P s p s.pm.cache := by
        rw [Missed, hcache]
        rfl
      simp only [insideStep, hcache]
      exact .on hfault (.evaluate hpc hon s.pm.cache hmissed) (Nat.lt_succ_self 4)
  | true =>
      obtain ⟨cache, hcheck⟩ | ⟨result, cache, hcheck⟩ := stepCacheCheck_cases s.pm.cache
        p.mes.header.filterBits (s.pm.nodes p.pnode).handle inp'.uptime
      · have hmissed : Missed P s p cache := by
          rw [Missed, hcache]
          exact hcheck
        simp only [insideStep, hcache, hcheck]
        exact .on hfault (.evaluate hpc hon cache hmissed) (Nat.lt_succ_self 4)
      · -- the evaluation and the `matched_handler` are passed over
        have hv : lookupVerdict P s.pm.cache (s.pm.nodes p.pnode) p.mes p.mesAddr p.rc
            { inp with uptime := inp'.uptime, cycles := inp'.cycles } =
              .ok (⟨result, p.rc, p.mes, []⟩, cache) := by
          simp only [lookupVerdict, hcache, hcheck, if_true]
        have hwithin := Within.unlock hpc hon _ _ hv
        rw [List.append_nil] at hwithin
        simp only [insideStep, hcache, if_true, hcheck]
        exact .on hfault hwithin (by decide : 1 < 5)

/-- Before the evaluation: it faults, or the `matched_handler` is next. -/
theorem advance_evaluate (hfault : s.fault = none) (hproc : s.proc = some p) (hpc : p.pc = .visit)
    (hon : (s.pm.nodes p.pnode).enabled = true) (hmissed : Missed P s p cache)
    (inp' : Inputs Ω) :
    Advance P s p { inp with world := inp'.world } (.evaluate (s.pm.nodes p.pnode).node)
      (insideStep P
        { s with
          pm := { s.pm with cache := cache }
          log := s.log ++ [.visit p.pnode true]
          proc := some { p with instr := inp.cycles } }
        { p with instr := inp.cycles } inp' (.evaluate (s.pm.nodes p.pnode).node)) := by
  cases hnode : (s.pm.nodes p.pnode).node with
  | none =>
      have hv : evaluateRecord (s.pm.nodes p.pnode) p.mes p.mesAddr p.rc
          { inp with world := inp'.world } = .error .nullDeref := by
        rw [evaluateRecord, hnode]
      exact .crash (sysStep_loopBody_error hfault hproc hpc hon (lookup_missed_error hmissed hv))
        rfl rfl
  | some chain =>
      simp only [insideStep]
      cases hv : evaluateFilter chain.head p.mes p.mesAddr (s.pm.nodes p.pnode).handle p.rc
        inp'.world with
      | error u =>
          have hrecord : evaluateRecord (s.pm.nodes p.pnode) p.mes p.mesAddr p.rc
              { inp with world := inp'.world } = .error u := by
            rw [evaluateRecord, hnode]
            simp only [evaluateNode, hv]
            rfl
          exact .crash
            (sysStep_loopBody_error hfault hproc hpc hon (lookup_missed_error hmissed hrecord))
            rfl rfl
      | ok v =>
          exact .on hfault (.matched hpc hon cache hmissed chain hnode v hv) (Nat.lt_succ_self 3)

/-- Before the `matched_handler`: the verdict is as the one step has it. -/
theorem advance_matched (hfault : s.fault = none) (hpc : p.pc = .visit)
    (hon : (s.pm.nodes p.pnode).enabled = true) (hmissed : Missed P s p cache)
    {chain : StepNodeChain Ω} (hnode : (s.pm.nodes p.pnode).node = some chain)
    (hv : evaluateFilter chain.head p.mes p.mesAddr (s.pm.nodes p.pnode).handle p.rc
      inp.world = .ok v) (inp' : Inputs Ω) :
    Advance P s p { inp with world' := inp'.world } (.matched chain v.value)
      (insideStep P
        { s with
          pm := { s.pm with cache := cache }
          log := s.log ++ [.visit p.pnode true] ++ v.events
          proc := some { p with instr := inp.cycles, rc := v.rc, mes := v.mes } }
        { p with instr := inp.cycles, rc := v.rc, mes := v.mes } inp'
        (.matched chain v.value)) := by
  let w := applyMatched chain.head p.mesAddr (s.pm.nodes p.pnode).handle inp'.world
    ⟨v.value, v.rc, v.mes, []⟩
  have hrecord : evaluateRecord (s.pm.nodes p.pnode) p.mes p.mesAddr p.rc
      { inp with world' := inp'.world } = .ok ⟨w.value, v.rc, w.mes, v.events ++ w.events⟩ := by
    rw [evaluateRecord, hnode]
    simp only [evaluateNode, hv, Except.map]
    rw [applyMatched_bare]
  simp only [insideStep]
  cases hcache : P.filterCache with
  | true =>
      have hwithin := Within.add hpc hon hcache cache hmissed chain hnode _ hrecord
      rw [← List.append_assoc] at hwithin
      exact .on hfault hwithin (Nat.lt_succ_self 2)
  | false =>
      have hwithin := Within.unlock (s := s) hpc hon cache _
        (lookup_missed_off hmissed hcache hrecord)
      rw [← List.append_assoc, hnode] at hwithin
      exact .on hfault hwithin (by decide : 1 < 3)

/-- Before `step_cache_add`: it faults, or the section is at its end. -/
theorem advance_add (hfault : s.fault = none) (hproc : s.proc = some p) (hpc : p.pc = .visit)
    (hon : (s.pm.nodes p.pnode).enabled = true) (hcache : P.filterCache = true)
    (hmissed : Missed P s p cache) {chain : StepNodeChain Ω}
    (hnode : (s.pm.nodes p.pnode).node = some chain)
    (hv : evaluateRecord (s.pm.nodes p.pnode) p.mes p.mesAddr p.rc inp = .ok v)
    (inp' : Inputs Ω) :
    Advance P s p { inp with uptime := inp'.uptime } (.add chain v.value)
      (insideStep P
        { s with
          pm := { s.pm with cache := cache }
          log := s.log ++ [.visit p.pnode true] ++ v.events
          proc := some { p with instr := inp.cycles, rc := v.rc, mes := v.mes } }
        { p with instr := inp.cycles, rc := v.rc, mes := v.mes } inp' (.add chain v.value)) := by
  have hrecord : evaluateRecord (s.pm.nodes p.pnode) p.mes p.mesAddr p.rc
      { inp with uptime := inp'.uptime } = .ok v := hv
  have hlookup := lookup_missed_on hmissed hcache hrecord
  simp only [insideStep]
  cases hadd : stepCacheAdd cache v.mes.header.filterBits (s.pm.nodes p.pnode).handle v.value
    inp'.uptime v.mes with
  | error u =>
      rw [hadd] at hlookup
      exact .crash (sysStep_loopBody_error hfault hproc hpc hon hlookup) rfl rfl
  | ok cache' =>
      rw [hadd] at hlookup
      have hwithin : Within P s p { inp with uptime := inp'.uptime } _ _ :=
        .unlock hpc hon cache' v hlookup
      rw [hnode] at hwithin
      exact .on hfault hwithin (Nat.lt_succ_self 1)

/-- **Before the lock is released**: what follows is the end of the one step. -/
theorem advance_unlock (hfault : s.fault = none) (hproc : s.proc = some p) (hpc : p.pc = .visit)
    (hon : (s.pm.nodes p.pnode).enabled = true)
    (hv : lookupVerdict P s.pm.cache (s.pm.nodes p.pnode) p.mes p.mesAddr p.rc inp =
      .ok (v, cache)) (inp' : Inputs Ω) :
    Advance P s p inp (.unlock (s.pm.nodes p.pnode).node v.value)
      (insideStep P
        { s with
          pm := { s.pm with cache := cache }
          log := s.log ++ [.visit p.pnode true] ++ v.events
          proc := some { p with instr := inp.cycles, rc := v.rc, mes := v.mes } }
        { p with instr := inp.cycles, rc := v.rc, mes := v.mes } inp'
        (.unlock (s.pm.nodes p.pnode).node v.value)) := by
  have hstep := sysStep_loopBody (P := P) hfault hproc hpc inp
  unfold visitStep at hstep
  simp only [hon, if_true, hv] at hstep
  simp only [insideStep]
  by_cases hzero : v.value = 0
  · rw [if_pos hzero] at hstep ⊢
    simp only [List.append_assoc] at hstep ⊢
    exact .out hstep hfault
  · rw [if_neg hzero] at hstep ⊢
    cases hnode : (s.pm.nodes p.pnode).node with
    | none =>
        rw [hnode] at hstep
        exact .crash hstep rfl rfl
    | some chain =>
        rw [hnode] at hstep
        simp only [List.append_assoc] at hstep ⊢
        exact .out hstep hfault

/-- **A step in a section** is a step towards its end: one case for each place it can be at.  The
inputs are those of the one step so far, with what this step has read filled in. -/
theorem within_advance (hfault : s.fault = none) (hproc : s.proc = some p)
    (h : Within P s p inp x i) (hq : x.proc = some q) (inp' : Inputs Ω) :
    Advance P s p (i.take inp inp') i (insideStep P x q inp' i) := by
  cases h with
  | check hpc hon =>
      obtain rfl := Option.some.inj (hproc.symm.trans hq)
      exact advance_check hfault hpc hon inp'
  | evaluate hpc hon cache hmissed =>
      obtain rfl := Option.some.inj hq
      exact advance_evaluate hfault hproc hpc hon hmissed inp'
  | matched hpc hon cache hmissed chain hnode v hv =>
      obtain rfl := Option.some.inj hq
      exact advance_matched hfault hpc hon hmissed hnode hv inp'
  | add hpc hon hcache cache hmissed chain hnode v hv =>
      obtain rfl := Option.some.inj hq
      exact advance_add hfault hproc hpc hon hcache hmissed hnode hv inp'
  | unlock hpc hon cache v hv =>
      obtain rfl := Option.some.inj hq
      exact advance_unlock hfault hproc hpc hon hv inp'
  | account hpc m hm =>
      obtain rfl := Option.some.inj (hproc.symm.trans hq)
      exact .on hfault (.next hpc m hm) (Nat.lt_succ_self 1)
  | next hpc m hm =>
      obtain rfl := Option.some.inj (hproc.symm.trans hq)
      have hsnode := (s.pm.account_sameRegistry P p.pnode p.instr inp.cycles).snode
      refine .out ?_ hfault
      simp [sysStep, hfault, hproc, procStep, hpc, hm, SectionPc.take, hsnode]
  | release hpc =>
      obtain rfl := Option.some.inj (hproc.symm.trans hq)
      refine .out ?_ hfault
      simp [sysStep, hfault, hproc, procStep, hpc]

/-- What a section leaves alone while it goes on. -/
theorem Within.facts (hfault : s.fault = none) (hproc : s.proc = some p)
    (hlock : LockDiscipline s) (h : Within P s p inp x i) :
    x.fault = none ∧ x.pm.handleCounter = s.pm.handleCounter ∧
      x.regAccess = .held workQueueTid 0 ∧ ∃ q, x.proc = some q := by
  have hvisit : p.pc = .visit → s.regAccess = .held workQueueTid 0 :=
    fun hpc => hlock.locked hproc (hpc ▸ trivial)
  have hrelock : ∀ m, p.pc = .relock → s.regAccess.lock workQueueTid = some m →
      m = .held workQueueTid 0 := by
    intro m hpc hm
    rw [hlock.unlocked hproc (hpc ▸ id)] at hm
    exact (Option.some.inj hm).symm
  cases h with
  | check hpc _ => exact ⟨hfault, rfl, hvisit hpc, p, hproc⟩
  | evaluate hpc | matched hpc | add hpc | unlock hpc => exact ⟨hfault, rfl, hvisit hpc, _, rfl⟩
  | account hpc m hm => exact ⟨hfault, rfl, hrelock m hpc hm, p, hproc⟩
  | next hpc m hm =>
      have hsame := s.pm.account_sameRegistry P p.pnode p.instr inp.cycles
      exact ⟨hfault, hsame.handleCounter, hrelock m hpc hm, p, hproc⟩
  | release hpc => exact ⟨hfault, rfl, hlock.locked hproc (hpc ▸ trivial), p, hproc⟩

end Within

/-! ### The sections are atomic -/

/-- The steps of the work-queue thread. -/
def Label.InThread : Label Ω → Prop
  | .proc _ => True
  | .process _ _ _ | .other _ _ => False

theorem Label.InThread.eq_proc {l : Label Ω} (h : l.InThread) : ∃ inp, l = .proc inp := by
  cases l with
  | proc inp => exact ⟨inp, rfl⟩
  | process | other => exact absurd h id

/-- What is seen of a step: that a dispatch begins, or a call with its answer.  The steps of the
work-queue thread are not compared one by one, since there are more of them in the one system than
in the other; what they do shows in the states. -/
def seenCalls (P : Platform) (s : Sys Ω) : Label Ω → List (Label Ω × List Call)
  | .proc _ => []
  | l => [(l, answers P s l)]

/-- What the work-queue thread does is not seen. -/
theorem seenCalls_inThread (P : Platform) (s : Sys Ω) {l : Label Ω} (h : l.InThread) :
    seenCalls P s l = [] := by
  obtain ⟨inp, rfl⟩ := h.eq_proc
  rfl

/-- The work-queue thread is in a section. -/
structure FineSys.Inside (x : FineSys Ω) : Prop where
  inside : ∃ i, x.inside = some i
  proc : ∃ p, x.sys.proc = some p
  held : x.sys.regAccess = .held workQueueTid 0

/-- It is in a section that has begun in `s`. -/
def WithinFrom (P : Platform) (s : Sys Ω) (x : FineSys Ω) : Prop :=
  s.fault = none ∧ LockDiscipline s ∧
    ∃ p inp i, s.proc = some p ∧ x.inside = some i ∧ Within P s p inp x.sys i

section Sections

variable {P : Platform} {s s' : Sys Ω} {x y z : FineSys Ω} {p : Proc Ω} {inp : Inputs Ω}
  {l b : Label Ω} {u : UndefinedBehaviour}

theorem fineStep_fault (h : fineStep P x l = some y) : x.sys.fault = none := by
  unfold fineStep at h
  split at h
  · cases h
  · rename_i hfault
    exact not_not.mp hfault

/-- What the others do is the same as elsewhere. -/
theorem fineStep_foreign (hl : ¬l.InThread) (x : FineSys Ω) :
    fineStep P x l = (sysStep P x.sys l).map fun s => ⟨s, x.inside⟩ := by
  unfold fineStep
  by_cases hfault : x.sys.fault ≠ none
  · unfold sysStep
    rw [if_pos hfault, if_pos hfault]
    rfl
  · rw [if_neg hfault]
    cases l with
    | proc => exact absurd trivial hl
    | process | other => rfl

theorem fineStep_inside (hfault : x.sys.fault = none) (hproc : x.sys.proc = some p)
    {i : SectionPc Ω} (hi : x.inside = some i) (inp : Inputs Ω) :
    fineStep P x (.proc inp) = some (insideStep P x.sys p inp i) := by
  simp [fineStep, hfault, hproc, hi]

/-- **Outside of a section** the work-queue thread takes one step, or enters a section. -/
theorem fineStep_outside (hfault : s.fault = none) (hlock : LockDiscipline s)
    (hproc : s.proc = some p) (inp : Inputs Ω) :
    fineStep P s.outside (.proc inp) = (sysStep P s (.proc inp)).map Sys.outside ∨
      ∃ x i, (∀ inp, Within P s p inp x i) ∧ x.fault = none ∧
        fineStep P s.outside (.proc inp) = some ⟨x, some i⟩ := by
  have hfine : fineStep P s.outside (.proc inp) = outsideStep P s p inp := by
    simp [fineStep, Sys.outside, hfault, hproc]
  have hcoarse : sysStep P s (.proc inp) = procStep P s p inp := by
    simp [sysStep, hfault, hproc]
  rw [hfine, hcoarse]
  cases hpc : p.pc with
  | visit =>
      cases hon : (s.pm.nodes p.pnode).enabled with
      | false =>
          left
          simp [outsideStep, hpc, hon]
      | true =>
          right
          refine ⟨_, _, fun inp => .check hpc hon, hfault, ?_⟩
          simp only [outsideStep, hpc, hon, if_true]
  | relock =>
      right
      have hm : s.regAccess.lock workQueueTid = some (.held workQueueTid 0) := by
        rw [hlock.unlocked hproc (hpc ▸ id)]
        rfl
      refine ⟨_, _, fun inp => .account hpc _ hm, hfault, ?_⟩
      simp only [outsideStep, hpc, hm, Option.map_some]
  | tail =>
      right
      refine ⟨_, _, fun inp => .release hpc, hfault, ?_⟩
      simp only [outsideStep, hpc]
  | lock | head | call | error | subsHead | subs | subsNext =>
      left
      simp only [outsideStep, hpc]

theorem WithinFrom.inside (h : WithinFrom P s x) : x.Inside := by
  obtain ⟨hfault, hlock, p, inp, i, hproc, hi, hwithin⟩ := h
  obtain ⟨-, -, hheld, hq⟩ := hwithin.facts hfault hproc hlock
  exact ⟨⟨i, hi⟩, hq, hheld⟩

theorem insideStep_handleCounter (P : Platform) (s : Sys Ω) (p : Proc Ω) (inp : Inputs Ω)
    (i : SectionPc Ω) :
    (insideStep P s p inp i).sys.pm.handleCounter = s.pm.handleCounter := by
  cases i with
  | check n =>
      simp only [insideStep]
      split <;> rfl
  | evaluate n =>
      cases n with
      | none => rfl
      | some chain =>
          simp only [insideStep]
          split <;> rfl
  | add chain value =>
      simp only [insideStep]
      split <;> rfl
  | unlock n value =>
      simp only [insideStep]
      split
      · rfl
      · cases n <;> rfl
  | account => exact (s.pm.account_sameRegistry P p.pnode p.instr inp.cycles).handleCounter
  | matched | next | release => rfl

/-- **What the others can do in a section**: write a flag, or fail.  It is stated for every state
with as many handles given out, because the section will have gone on by the time the step is
taken there. -/
theorem foreign_flags (hx : x.Inside) (hb : ¬b.InThread) (hstep : fineStep P x b = some y) :
    (∃ g, ∀ r : FineSys Ω, r.sys.fault = none →
      r.sys.pm.handleCounter = x.sys.pm.handleCounter →
        fineStep P r b = some (r.withFlags g) ∧ seenCalls P r.sys b = seenCalls P x.sys b) ∨
    ∃ u, ∀ r : FineSys Ω, r.sys.fault = none →
      r.sys.pm.handleCounter = x.sys.pm.handleCounter →
        ∃ r', fineStep P r b = some r' ∧ r'.sys.fault = some u := by
  rw [fineStep_foreign hb, Option.map_eq_some_iff] at hstep
  obtain ⟨s', hs', -⟩ := hstep
  obtain ⟨p, hp⟩ := hx.proc
  obtain ⟨-, hmove⟩ := sysStep_move hs'
  cases hmove with
  | process _ _ _ hproc =>
      rw [hp] at hproc
      cases hproc
  | proc => exact absurd trivial hb
  | other t c ht hlock _ =>
      have hlocks : ¬c.locks := by
        intro hlocks
        refine hlock hlocks ?_
        rw [hx.held, KMutex.lock, if_neg (Ne.symm ht)]
      obtain ⟨g, hg⟩ | ⟨u, hu⟩ := sysStep_flags hlocks hs'
      · refine Or.inl ⟨g, fun r hr hcounter => ?_⟩
        obtain ⟨hstep, hanswer⟩ := hg r.sys hr hcounter
        rw [fineStep_foreign hb, hstep]
        exact ⟨rfl, congrArg (fun a => [(Label.other t c, a)]) hanswer⟩
      · refine Or.inr ⟨u, fun r hr hcounter => ?_⟩
        obtain ⟨r', hr', hfault⟩ := hu r.sys hr hcounter
        rw [fineStep_foreign hb, hr']
        exact ⟨_, rfl, hfault⟩

/-- They do not end it. -/
theorem foreign_stays (hx : x.Inside) (hb : ¬b.InThread) (hstep : fineStep P x b = some y) :
    y.Inside := by
  rw [fineStep_foreign hb, Option.map_eq_some_iff] at hstep
  obtain ⟨s', hs', rfl⟩ := hstep
  obtain ⟨p, hp⟩ := hx.proc
  obtain ⟨-, hmove⟩ := sysStep_move hs'
  cases hmove with
  | process _ _ _ hproc =>
      rw [hp] at hproc
      cases hproc
  | proc => exact absurd trivial hb
  | other => exact ⟨hx.inside, ⟨p, hp⟩, hx.held⟩

/-- A step of a section leads to another one, or the section is over. -/
theorem WithinFrom.step (h : WithinFrom P s x) (hstep : fineStep P x (.proc inp) = some y) :
    WithinFrom P s y ∧ y.sys.fault = none ∨
      ∃ inp s', sysStep P s (.proc inp) = some s' ∧
        (y = s'.outside ∧ s'.fault = none ∨ ∃ u, y.sys.fault = some u ∧ s'.fault = some u) := by
  obtain ⟨hfault, hlock, p, inp₀, i, hproc, hi, hwithin⟩ := h
  obtain ⟨hx, -, -, q, hq⟩ := hwithin.facts hfault hproc hlock
  rw [fineStep_inside hx hq hi] at hstep
  cases Option.some.inj hstep with
  | refl =>
      have hadvance := within_advance hfault hproc hwithin hq inp
      generalize insideStep P x.sys q inp i = y at hadvance
      cases hadvance with
      | on hy hwithin' _ =>
          exact Or.inl ⟨⟨hfault, hlock, p, _, _, hproc, rfl, hwithin'⟩, hy⟩
      | out hstep hy => exact Or.inr ⟨_, _, hstep, Or.inl ⟨rfl, hy⟩⟩
      | crash hstep hx hy => exact Or.inr ⟨_, _, hstep, Or.inr ⟨_, hx, hy⟩⟩

/-- **A section can be taken to its end** as the one step says. -/
theorem section_runs (hfault : s.fault = none) (hlock : LockDiscipline s) (hproc : s.proc = some p)
    {r : Sys Ω} {i : SectionPc Ω} (hwithin : Within P s p inp r i) :
    ∃ ls y s', run (fineStep P) ⟨r, some i⟩ ls = some y ∧ (∀ l ∈ ls, l.InThread) ∧
      sysStep P s (.proc inp) = some s' ∧
        (y = s'.outside ∧ s'.fault = none ∨ ∃ u, y.sys.fault = some u ∧ s'.fault = some u) := by
  -- on the number of steps that are left
  induction hn : i.left using Nat.strong_induction_on generalizing r i with
  | h n ih =>
      subst hn
      obtain ⟨hr, -, -, q, hq⟩ := hwithin.facts hfault hproc hlock
      have hstep : fineStep P ⟨r, some i⟩ (.proc (i.give inp)) =
          some (insideStep P r q (i.give inp) i) := fineStep_inside hr hq rfl _
      have hadvance := within_advance hfault hproc hwithin hq (i.give inp)
      rw [i.take_give] at hadvance
      generalize insideStep P r q (i.give inp) i = y at hadvance hstep
      cases hadvance with
      | on hy hwithin' hlt =>
          obtain ⟨ls, z, s', hrun, hls, hs', hend⟩ := ih _ hlt hwithin' rfl
          exact ⟨_ :: ls, z, s', (run_cons_eq_some _).mpr ⟨_, hstep, hrun⟩,
            List.forall_mem_cons.mpr ⟨trivial, hls⟩, hs', hend⟩
      | out hs' hy =>
          exact ⟨[_], _, _, (run_cons_eq_some _).mpr ⟨_, hstep, rfl⟩, by simp [Label.InThread], hs',
            Or.inl ⟨rfl, hy⟩⟩
      | crash hs' hx hy =>
          exact ⟨[_], _, _, (run_cons_eq_some _).mpr ⟨_, hstep, rfl⟩, by simp [Label.InThread], hs',
            Or.inr ⟨_, hx, hy⟩⟩

/-- A step of the work-queue thread, taken in the sections. -/
theorem proc_runs (hlock : LockDiscipline s) (hstep : sysStep P s (.proc inp) = some s') :
    ∃ ls y, run (fineStep P) s.outside ls = some y ∧ (∀ l ∈ ls, l.InThread) ∧
      (y = s'.outside ∨ ∃ u, y.sys.fault = some u ∧ s'.fault = some u) := by
  obtain ⟨hfault, hmove⟩ := sysStep_move hstep
  cases hmove with
  | proc hproc _ =>
      obtain hsame | ⟨r, i, hwithin, -, hin⟩ := fineStep_outside hfault hlock hproc inp
      · rw [hstep] at hsame
        exact ⟨[_], _, (run_cons_eq_some _).mpr ⟨_, hsame, rfl⟩, by simp [Label.InThread],
          Or.inl rfl⟩
      · obtain ⟨ls, y, t, hrun, hls, ht, hend⟩ :=
          section_runs hfault hlock hproc (hwithin inp)
        obtain rfl := Option.some.inj (hstep.symm.trans ht)
        exact ⟨_ :: ls, y, (run_cons_eq_some _).mpr ⟨_, hin, hrun⟩,
          List.forall_mem_cons.mpr ⟨trivial, hls⟩, hend.imp_left And.left⟩

/-! ### What is asked of sections

One lemma for each field of `Sections`.  `foreign_flags` carries those on the others, as in a
section they can only write a flag; `WithinFrom.step` and `proc_runs` carry the rest. -/

/-- From outside one step is taken, or a section is entered. -/
theorem fineStep_enter (hlock : LockDiscipline s) (hstep : fineStep P s.outside l = some y) :
    (∃ s', sysStep P s l = some s' ∧ y = s'.outside) ∨
      l.InThread ∧ y.sys.fault = none ∧ WithinFrom P s y := by
  by_cases hl : l.InThread
  · obtain ⟨inp, rfl⟩ := hl.eq_proc
    have hfault : s.fault = none := fineStep_fault hstep
    cases hproc : s.proc with
    | none => simp [fineStep, Sys.outside, hfault, hproc] at hstep
    | some p =>
        obtain hsame | ⟨r, i, hwithin, hr, hin⟩ := fineStep_outside hfault hlock hproc inp
        · rw [hsame, Option.map_eq_some_iff] at hstep
          obtain ⟨s', hs', rfl⟩ := hstep
          exact Or.inl ⟨s', hs', rfl⟩
        · obtain rfl := Option.some.inj (hin.symm.trans hstep)
          exact Or.inr ⟨trivial, hr, hfault, hlock, p, inp, i, hproc, rfl, hwithin inp⟩
  · rw [fineStep_foreign hl, Option.map_eq_some_iff] at hstep
    obtain ⟨s', hs', rfl⟩ := hstep
    exact Or.inl ⟨s', hs', rfl⟩

/-- A section goes on, or it was one step. -/
theorem WithinFrom.go (h : WithinFrom P s x) (hl : l.InThread) (hstep : fineStep P x l = some y)
    (hy : y.sys.fault = none) :
    WithinFrom P s y ∨ ∃ l' s', l'.InThread ∧ sysStep P s l' = some s' ∧ y = s'.outside := by
  obtain ⟨inp, rfl⟩ := hl.eq_proc
  obtain ⟨hwithin, -⟩ | ⟨inp', s', hs', ⟨rfl, -⟩ | ⟨u, hu, -⟩⟩ := h.step hstep
  · exact Or.inl hwithin
  · exact Or.inr ⟨.proc inp', s', trivial, hs', rfl⟩
  · rw [hy] at hu
    cases hu

/-- A fault of a section is the fault of the one step. -/
theorem WithinFrom.crash (h : WithinFrom P s x) (hl : l.InThread)
    (hstep : fineStep P x l = some y) (hy : y.sys.fault = some u) :
    ∃ l' s', sysStep P s l' = some s' ∧ s'.fault = some u := by
  obtain ⟨inp, rfl⟩ := hl.eq_proc
  obtain ⟨-, hnone⟩ | ⟨inp', s', hs', ⟨rfl, hnone⟩ | ⟨u', hu, hs''⟩⟩ := h.step hstep
  · rw [hnone] at hy
    cases hy
  · rw [show s'.outside.sys.fault = none from hnone] at hy
    cases hy
  · rw [hu] at hy
    exact ⟨.proc inp', s', hs', hs''.trans hy⟩

/-- A section with flags written meanwhile takes the same steps. -/
theorem fineStep_withFlags (g : ℕ → Bool → Bool) (hx : x.Inside) (hl : l.InThread)
    (hstep : fineStep P (x.withFlags g) l = some z) :
    ∃ y, fineStep P x l = some y ∧ z = y.withFlags g ∧
      y.sys.pm.handleCounter = x.sys.pm.handleCounter := by
  obtain ⟨inp, rfl⟩ := hl.eq_proc
  obtain ⟨i, hi⟩ := hx.inside
  obtain ⟨p, hp⟩ := hx.proc
  have hfault : x.sys.fault = none := (fineStep_fault hstep :)
  have hown := fineStep_inside (P := P) (x := x.withFlags g) hfault hp hi inp
  obtain rfl := Option.some.inj (hstep.symm.trans hown)
  exact ⟨_, fineStep_inside hfault hp hi inp, insideStep_withFlags p inp i,
    insideStep_handleCounter P x.sys p inp i⟩

/-- **What the others do in a section they can do behind its next step.** -/
theorem fineStep_later {a : Label Ω} (hx : x.Inside) (hb : ¬b.InThread) (ha : a.InThread)
    (hxy : fineStep P x b = some y) (hyz : fineStep P y a = some z) (hz : z.sys.fault = none) :
    ∃ y', fineStep P x a = some y' ∧ fineStep P y' b = some z ∧
      seenCalls P y'.sys b = seenCalls P x.sys b := by
  have hfault := fineStep_fault hxy
  obtain ⟨g, hg⟩ | ⟨u, hu⟩ := foreign_flags hx hb hxy
  · obtain rfl := Option.some.inj (hxy.symm.trans (hg x hfault rfl).1)
    obtain ⟨y', hown, rfl, hcounter⟩ := fineStep_withFlags g hx ha hyz
    obtain ⟨hlater, hseen⟩ := hg y' hz hcounter
    exact ⟨y', hown, hlater, hseen⟩
  · obtain ⟨r, hr, hrfault⟩ := hu x hfault rfl
    obtain rfl := Option.some.inj (hxy.symm.trans hr)
    rw [fineStep_fault hyz] at hrfault
    cases hrfault

/-- A fault comes without what the others have done before it. -/
theorem fineStep_sooner {a : Label Ω} (hx : x.Inside) (hb : ¬b.InThread)
    (hxy : fineStep P x b = some y) (hyz : fineStep P y a = some z)
    (hz : z.sys.fault = some u) : ∃ z', fineStep P x a = some z' ∧ z'.sys.fault = some u := by
  have hfault := fineStep_fault hxy
  obtain ⟨g, hg⟩ | ⟨u', hu⟩ := foreign_flags hx hb hxy
  · obtain rfl := Option.some.inj (hxy.symm.trans (hg x hfault rfl).1)
    by_cases ha : a.InThread
    · obtain ⟨y', hown, rfl, -⟩ := fineStep_withFlags g hx ha hyz
      exact ⟨y', hown, hz⟩
    · -- the fault is one of the others: a call with a handle out of bounds
      obtain ⟨g', hg'⟩ | ⟨u', hu⟩ := foreign_flags (foreign_stays hx hb hxy) ha hyz
      · obtain rfl := Option.some.inj (hyz.symm.trans (hg' (x.withFlags g) hfault rfl).1)
        rw [show ((x.withFlags g).withFlags g').sys.fault = none from hfault] at hz
        cases hz
      · obtain ⟨r, hr, hrfault⟩ := hu (x.withFlags g) hfault rfl
        obtain rfl := Option.some.inj (hyz.symm.trans hr)
        obtain ⟨r', hr', hrfault'⟩ := hu x hfault rfl
        exact ⟨r', hr', hrfault'.trans (hrfault.symm.trans hz)⟩
  · obtain ⟨r, hr, hrfault⟩ := hu x hfault rfl
    obtain rfl := Option.some.inj (hxy.symm.trans hr)
    rw [fineStep_fault hyz] at hrfault
    cases hrfault

/-- A fault of the others in a section is one of theirs before it. -/
theorem WithinFrom.foreign (h : WithinFrom P s x) (hb : ¬b.InThread)
    (hstep : fineStep P x b = some y) (hy : y.sys.fault = some u) :
    ∃ s', sysStep P s b = some s' ∧ s'.fault = some u := by
  obtain ⟨hs, hlock, p, inp, i, hproc, -, hwithin⟩ := id h
  obtain ⟨hfault, hcounter, -, -⟩ := hwithin.facts hs hproc hlock
  obtain ⟨g, hg⟩ | ⟨u', hu⟩ := foreign_flags h.inside hb hstep
  · obtain rfl := Option.some.inj (hstep.symm.trans (hg x hfault rfl).1)
    rw [show (x.withFlags g).sys.fault = none from hfault] at hy
    cases hy
  · obtain ⟨r, hr, hrfault⟩ := hu x hfault rfl
    obtain rfl := Option.some.inj (hstep.symm.trans hr)
    obtain ⟨r', hr', hrfault'⟩ := hu s.outside hs hcounter.symm
    rw [fineStep_foreign hb, Option.map_eq_some_iff] at hr'
    obtain ⟨s', hs', rfl⟩ := hr'
    exact ⟨s', hs', hrfault'.trans (hrfault.symm.trans hy)⟩

theorem fineStep_of_foreign (hl : ¬l.InThread) (hstep : sysStep P s l = some s') :
    fineStep P s.outside l = some s'.outside := by
  rw [fineStep_foreign hl]
  exact congrArg (Option.map Sys.outside) hstep

/-- **One step can be taken step by step**, and shows the same. -/
theorem sysStep_spread (hlock : LockDiscipline s) (hstep : sysStep P s l = some s')
    (hs' : s'.fault = none) :
    ∃ ls, run (fineStep P) s.outside ls = some s'.outside ∧
      trace (fineStep P) (fun x => seenCalls P x.sys) s.outside ls = seenCalls P s l := by
  by_cases hl : l.InThread
  · obtain ⟨inp, rfl⟩ := hl.eq_proc
    obtain ⟨ls, y, hrun, hls, rfl | ⟨u, -, hu⟩⟩ := proc_runs hlock hstep
    · exact ⟨ls, hrun, trace_eq_nil fun l hl x => seenCalls_inThread P x.sys (hls l hl)⟩
    · rw [show s'.fault = none from hs'] at hu
      cases hu
  · have hfine := fineStep_of_foreign hl hstep
    refine ⟨[l], (run_cons_eq_some _).mpr ⟨_, hfine, rfl⟩, ?_⟩
    rw [trace_cons hfine, trace, List.append_nil]
    rfl

/-- …and faults the same. -/
theorem sysStep_spread_fault (hlock : LockDiscipline s) (hstep : sysStep P s l = some s')
    (hs' : s'.fault = some u) :
    ∃ ls x, run (fineStep P) s.outside ls = some x ∧ x.sys.fault = some u := by
  by_cases hl : l.InThread
  · obtain ⟨inp, rfl⟩ := hl.eq_proc
    obtain ⟨ls, y, hrun, -, rfl | ⟨u', hy, hu⟩⟩ := proc_runs hlock hstep
    · exact ⟨ls, _, hrun, hs'⟩
    · exact ⟨ls, y, hrun, hy.trans (hu.symm.trans hs')⟩
  · exact ⟨[l], s'.outside, (run_cons_eq_some _).mpr ⟨_, fineStep_of_foreign hl hstep, rfl⟩, hs'⟩

/-- **The sections of a dispatch.** -/
theorem fineSections (P : Platform) :
    Sections (fineStep P) (sysStep P) Label.InThread (Sys.outside (Ω := Ω)) LockDiscipline
      FineSys.Inside (WithinFrom P) (fun x => x.sys.fault) (fun x => seenCalls P x.sys)
      (seenCalls P) where
  keeps := sysStep_lockDiscipline
  alive := fineStep_fault
  alive' h := (sysStep_move h).1
  quiet := seenCalls_inThread P _
  quiet' := seenCalls_inThread P _
  same := rfl
  inside := WithinFrom.inside
  enter := fineStep_enter
  go := WithinFrom.go
  crash := WithinFrom.crash
  stays := foreign_stays
  later := fineStep_later
  sooner := fineStep_sooner
  foreign := WithinFrom.foreign
  spread := sysStep_spread
  spread_fault := sysStep_spread_fault

/-! ### A section comes to an end -/

/-- A section that goes on has come nearer to its end. -/
theorem insideStep_left (P : Platform) (hproc : s.proc = some p) (inp : Inputs Ω)
    (i : SectionPc Ω) {j : SectionPc Ω} (hj : (insideStep P s p inp i).inside = some j) :
    j.left < i.left ∧ (∃ q, (insideStep P s p inp i).sys.proc = some q) ∧
      (insideStep P s p inp i).sys.fault = s.fault := by
  cases i with
  | check n =>
      simp only [insideStep] at hj ⊢
      split at hj
      · rename_i hon
        obtain rfl := Option.some.inj hj
        rw [if_pos hon]
        refine ⟨?_, ⟨_, rfl⟩, rfl⟩
        split
        · exact (by decide : 1 < 5)
        · exact Nat.lt_succ_self 4
      · rename_i hoff
        obtain rfl := Option.some.inj hj
        rw [if_neg hoff]
        exact ⟨Nat.lt_succ_self 4, ⟨_, rfl⟩, rfl⟩
  | evaluate n =>
      cases n with
      | none => cases hj
      | some chain =>
          simp only [insideStep] at hj ⊢
          split at hj
          · cases hj
          · obtain rfl := Option.some.inj hj
            exact ⟨Nat.lt_succ_self 3, ⟨_, rfl⟩, rfl⟩
  | matched chain value =>
      obtain rfl := Option.some.inj hj
      refine ⟨?_, ⟨_, rfl⟩, rfl⟩
      split
      · exact Nat.lt_succ_self 2
      · exact (by decide : 1 < 3)
  | add chain value =>
      simp only [insideStep] at hj ⊢
      split at hj
      · cases hj
      · obtain rfl := Option.some.inj hj
        exact ⟨Nat.lt_succ_self 1, ⟨p, hproc⟩, rfl⟩
  | unlock n value =>
      simp only [insideStep] at hj
      split at hj
      · cases hj
      · cases n <;> cases hj
  | account =>
      obtain rfl := Option.some.inj hj
      exact ⟨Nat.lt_succ_self 1, ⟨p, hproc⟩, rfl⟩
  | next | release => cases hj

/-- How many steps are left at most of the section, if there is one. -/
def FineSys.left (x : FineSys Ω) : ℕ := (x.inside.map SectionPc.left).getD 0

/-- **A section once entered comes to an end** if the work-queue thread goes on; nothing in it
waits for anything.  Waiting comes before: for the registry lock at `.relock`, and for the lock of
the sample pool inside `step_sp_free`, whose return is the first step of the last section. -/
theorem section_ends {ls : List (Label Ω)}
    (hrun : run (fineStep P) (Sys.init P).outside ls = some x) (hx : x.sys.fault = none)
    (inputs : ℕ → Inputs Ω) :
    ∃ n y, run (fineStep P) x ((List.range n).map fun k => .proc (inputs k)) = some y ∧
      y.inside = none := by
  have hinit : LockDiscipline (Sys.init P : Sys Ω) := rfl
  have hI : x.inside ≠ none → x.sys.fault = none ∧ ∃ p, x.sys.proc = some p := by
    intro hin
    obtain ⟨ls, t, -, ⟨rfl, -⟩ | ⟨y, pend, hwithin, hforeign, hpend, -⟩⟩ :=
      (fineSections P).reduce hinit hrun hx
    · exact absurd rfl hin
    · exact ⟨hx, ((fineSections P).stays_run hforeign hwithin.inside hpend).proc⟩
  have hstep : ∀ (x : FineSys Ω) (l : Label Ω),
      (x.inside ≠ none → x.sys.fault = none ∧ ∃ p, x.sys.proc = some p) → ¬x.inside = none →
      l.InThread → ∃ y, fineStep P x l = some y ∧
        (y.inside ≠ none → y.sys.fault = none ∧ ∃ p, y.sys.proc = some p) ∧
          (y.inside = none ∨ y.left < x.left) := by
    intro x l hI hgoal hl
    cases l with
    | process | other => exact absurd hl id
    | proc inp =>
        obtain ⟨hfault, p, hp⟩ := hI hgoal
        obtain ⟨i, hi⟩ := Option.ne_none_iff_exists'.mp hgoal
        refine ⟨_, fineStep_inside hfault hp hi inp, ?_⟩
        cases hy : (insideStep P x.sys p inp i).inside with
        | none => exact ⟨fun h => absurd rfl h, Or.inl rfl⟩
        | some j =>
            obtain ⟨hlt, hq, hfault'⟩ := insideStep_left P hp inp i hy
            refine ⟨fun _ => ⟨hfault'.trans hfault, hq⟩, Or.inr ?_⟩
            simpa only [FineSys.left, hy, hi, Option.map_some, Option.getD_some] using hlt
  exact exists_run_of_variant FineSys.left hstep x (fun k => .proc (inputs k)) (fun _ => trivial) hI

/-- **The sections are atomic.**  Let each access of a locked section of `step_pm_process` be a
step of its own, between which `step_pm_enable_node` and `step_pm_disable_node` come in: outside
of the sections the same states are reached as with one step for each section, by the same
dispatches and the same calls in the same order and with the same answers; the same faults
occur; and a section once entered comes to an end, the one at the end of a dispatch being entered
when `step_sp_free` has returned. -/
theorem locked_sections_atomic (P : Platform) :
    (∀ (s : Sys Ω) (seen : List (Label Ω × List Call)), s.fault = none →
      ((∃ ls, run (fineStep P) (Sys.init P).outside ls = some s.outside ∧
          trace (fineStep P) (fun x => seenCalls P x.sys) (Sys.init P).outside ls = seen) ↔
        ∃ ls, run (sysStep P) (Sys.init P) ls = some s ∧
          trace (sysStep P) (seenCalls P) (Sys.init P) ls = seen)) ∧
      (∀ u, (∃ ls x, run (fineStep P) (Sys.init P : Sys Ω).outside ls = some x ∧
          x.sys.fault = some u) ↔
        ∃ ls s, run (sysStep P) (Sys.init P : Sys Ω) ls = some s ∧ s.fault = some u) ∧
      ∀ (ls : List (Label Ω)) (x : FineSys Ω) (inputs : ℕ → Inputs Ω),
        run (fineStep P) (Sys.init P).outside ls = some x → x.sys.fault = none →
          ∃ n y, run (fineStep P) x ((List.range n).map fun k => .proc (inputs k)) = some y ∧
            y.inside = none := by
  have hinit : LockDiscipline (Sys.init P : Sys Ω) := rfl
  refine ⟨fun s seen hs => ?_, fun u => ?_, fun ls x inputs hrun hx => section_ends hrun hx inputs⟩
  · have hout : ¬s.outside.Inside := fun h => by
      obtain ⟨i, hi⟩ := h.inside
      cases hi
    rw [(fineSections P).run_iff hinit hout hs]
    constructor
    · rintro ⟨t, ls, hst, hrun, htrace⟩
      obtain rfl : s = t := congrArg FineSys.sys hst
      exact ⟨ls, hrun, htrace⟩
    · rintro ⟨ls, hrun, htrace⟩
      exact ⟨s, ls, rfl, hrun, htrace⟩
  · exact (fineSections P).fault_iff hinit rfl

/-- A record is disabled in the middle of its evaluation, and its chain is executed. -/
def disabledInEvaluation : List (Label Unit) :=
  let tick : Label Unit := .proc ⟨(), (), 1, 0#32⟩
  [.other 1 (.register workingChain 1 fun _ => ()),
    .process 64 ⟨⟨0#32, 0#32, 0#32⟩, []⟩ false, tick, tick, tick, tick,
    .other 1 (.disable 0), tick, tick, tick, tick, tick]

/-- With one step for the loop body it is disabled behind it, with the same end. -/
theorem locked_sections_atomic_disabled :
    ∃ s, run (fineStep Platform.tests) (Sys.init Platform.tests).outside disabledInEvaluation =
        some (Sys.outside s) ∧
      ∃ ls, run (sysStep Platform.tests) (Sys.init Platform.tests) ls = some s ∧
        (trace (sysStep Platform.tests) (seenCalls Platform.tests) (Sys.init Platform.tests)
          ls).map Prod.snd = [[.answered 0 (some 0)], [], [.answered 0 none]] := by
  obtain ⟨s, hrun, hs⟩ : ∃ s, run (fineStep Platform.tests) (Sys.init Platform.tests).outside
      disabledInEvaluation = some (Sys.outside s) ∧ s.fault = none := ⟨_, rfl, rfl⟩
  obtain ⟨ls, hrun', htrace⟩ := ((locked_sections_atomic Platform.tests).1 s _ hs).mp
    ⟨disabledInEvaluation, hrun, rfl⟩
  exact ⟨s, hrun, ls, hrun', by rw [htrace]; rfl⟩

end Sections

end StepPipeline
