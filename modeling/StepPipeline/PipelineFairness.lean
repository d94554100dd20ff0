import StepPipeline.Library.FairRun
import StepPipeline.PipelineLiveness

/-!
# Every measurement is served

What becomes of a measurement that has been put, while everybody goes on as before: other
producers put theirs, threads call the registry interface between dispatches, and the
callbacks of the nodes allocate and put measurements themselves.

* `Pipeline.waiting`, `Pipeline.busy` and `Pipeline.turn` — who waits, where the work-queue
  thread stands with the measurement it has taken, and how far the turn of another one is;
* `PipelineReached.worker_step` — **a step of the work-queue thread**: it takes the first of
  those that wait, or comes nearer to that;
* `PipelineReached.other_step` — **a step of anybody else**: it appends to those that wait
  and holds up nobody;
* `worker_enabled` — as long as there is something to do, the work-queue thread can go on;
* `Considerate`, `Scheduled` — what everybody keeps to, and a run of such steps that goes on
  for ever and does not forget the work-queue thread;
* `ServedBetween`, `every_measurement_served` — **in such a run every measurement that has
  been accepted is taken, its dispatch returns, and it is freed if and only if it is from the
  pool**, unless the system leaves defined behaviour.

## Why the rank is that of one measurement

The queue need not ever be empty: in `samples/simple_subscription` the subscriber of one
measurement puts the next one.  What comes nearer is the turn of each measurement.  Ahead of
it stand those that were accepted before, a list that nobody but the work-queue thread can
change, and the dispatch in flight, which nobody can lengthen, because the calls that touch
the registry do not come while a measurement is dispatched.

## What is asked of the schedule

`Fair` asks that the work-queue thread is not passed over for ever while it can take a step of
the queue or of the dispatch.  Its other labels, the calls that a callback makes, are not
among those: fairness towards the dispatch says at once that a callback comes to an end.
That a failed allocation of another thread is excluded is no convenience.  It keeps the mutex
of the pool, and `failed_alloc_deadlocks` shows what becomes of the run then.  An allocation
that fails on the work-queue thread itself may happen: the mutex is recursive, and its owner
goes on.
-/

namespace StepPipeline

open IntrusiveList LabelledRun

variable {Ω : Type}

/-! ### Where the work-queue thread stands -/

/-- The measurements in the pending list, in order. -/
noncomputable def Pipeline.waiting (s : Pipeline Ω) : List ℕ :=
  Classical.epsilon (QueueInvariant s.queue)

/-- What the thread has to do before it takes the next measurement: go through the dispatch,
come back from the handler, or nothing. -/
def Pipeline.stage (s : Pipeline Ω) : ℕ :=
  if s.sys.proc.isSome then 2 else if s.queue.handling.isSome then 1 else 0

/-- How far the thread is from taking the next measurement. -/
noncomputable def Pipeline.busy (s : Pipeline Ω) : ℕ ×ₗ ℕ ×ₗ ℕ ×ₗ ℕ :=
  toLex (s.stage, s.sys.rank)

/-- Nothing is in flight, and nothing waits. -/
def Pipeline.AtRest (s : Pipeline Ω) : Prop :=
  s.sys.proc = none ∧ s.queue.handling = none ∧ s.queue.pending.head = none

section Steps

variable {B : ItemBuild} {P : Platform} {s s' : Pipeline Ω} {label : PipelineLabel Ω}
  {l : List ℕ} {p : Proc Ω} {mes : ℕ}

theorem Pipeline.waiting_eq (h : QueueInvariant s.queue l) : s.waiting = l :=
  (Classical.epsilon_spec ⟨l, h⟩ : QueueInvariant s.queue s.waiting).holds.path.unique
    h.holds.path

theorem PipelineInvariant.waiting (h : PipelineInvariant B s) :
    QueueInvariant s.queue s.waiting ∧ ∀ mes ∈ s.waiting, s.holder mes = .queue := by
  obtain ⟨l, hq, hl⟩ := h.queue
  rw [Pipeline.waiting_eq hq]
  exact ⟨hq, hl⟩

theorem Pipeline.stage_proc (hproc : s.sys.proc = some p) : s.stage = 2 := by
  simp [Pipeline.stage, hproc]

theorem Pipeline.stage_handling (hproc : s.sys.proc = none)
    (hhandling : s.queue.handling = some mes) : s.stage = 1 := by
  simp [Pipeline.stage, hproc, hhandling]

theorem Pipeline.busy_lt_of_stage (h : s'.stage < s.stage) : s'.busy < s.busy :=
  Prod.Lex.toLex_lt_toLex.mpr (Or.inl h)

theorem Pipeline.busy_lt_of_rank (h : s'.stage = s.stage) (hrank : s'.sys.rank < s.sys.rank) :
    s'.busy < s.busy :=
  Prod.Lex.toLex_lt_toLex.mpr (Or.inr ⟨h, hrank⟩)

/-- Nothing ranks lower than a system in which no measurement is dispatched. -/
theorem rank_of_proc_none {s : Sys Ω} (h : s.proc = none) :
    s.rank = toLex (0, toLex (0, 0)) := by
  rw [Sys.rank, h]

/-- **A step of the work-queue thread**: it leaves defined behaviour, takes the first of
those that wait, or comes nearer to that. -/
theorem PipelineReached.worker_step (h : PipelineReached B P s) (hworker : label.IsWorker)
    (hstep : pipelineStep B.toPoolBuild P s label = some s') :
    s'.sys.fault ≠ none ∨
      (s.sys.proc = none ∧ ∃ mes p, s.waiting = mes :: s'.waiting ∧ s'.sys.proc = some p ∧
        p.mesAddr = mes) ∨
      s'.waiting = s.waiting ∧ s'.busy < s.busy := by
  obtain ⟨hq, hl⟩ := h.invariant.waiting
  cases pipelineStep_move hstep with
  | @pop mes queue sys hhead hqueue hsys =>
      obtain ⟨hidle, p, hp, hmes, -⟩ := sysStep_poll hsys
      rw [hq.holds.head_eq] at hhead
      obtain ⟨rest, hrest⟩ := List.head?_eq_some_iff.mp hhead
      rw [hrest] at hq
      cases queueStep_move hqueue with
      | @pop mes' _ hhead' =>
          obtain rfl : mes' = mes := by
            rw [hq.holds.head_eq] at hhead'
            exact (Option.some.inj hhead').symm
          refine Or.inr (Or.inl ⟨hidle, mes', p, ?_, hp, hmes⟩)
          rw [hrest, Pipeline.waiting_eq hq.pop]
  | @proc inp p sys hproc hsys htail =>
      have hpc : p.pc ≠ .tail := by
        rintro hpc
        rw [hpc] at htail
        cases htail
      have hone := procStep_of_sysStep hsys hproc
      obtain ⟨p', hproc', -⟩ := proc_of_procStep hproc hpc hone
      rcases procStep_rank_lt h.returns hproc hone with hnone | hcrash | hlt
      · rw [hproc'] at hnone
        cases hnone
      · exact Or.inl hcrash
      · refine Or.inr (Or.inr ⟨rfl, Pipeline.busy_lt_of_rank ?_ hlt⟩)
        rw [Pipeline.stage_proc hproc]
        exact Pipeline.stage_proc (s := { s with sys := sys }) hproc'
  -- the dispatch is over, which is a later stage, whatever the rank of a system without one
  | @keep inp p sys hproc hsys htail _ =>
      have hhandling := (h.invariant.handler p hproc).2
      refine Or.inr (Or.inr ⟨rfl, Pipeline.busy_lt_of_stage ?_⟩)
      rw [Pipeline.stage_proc hproc, Pipeline.stage_handling (s := s.kept p.mesAddr sys)
        (proc_none_of_tail hsys hproc htail) hhandling]
      decide
  | @free inp p sys pool hproc hsys htail _ _ =>
      have hhandling := (h.invariant.handler p hproc).2
      refine Or.inr (Or.inr ⟨rfl, Pipeline.busy_lt_of_stage ?_⟩)
      rw [Pipeline.stage_proc hproc, Pipeline.stage_handling (s := s.freed _ p.mesAddr pool sys)
        (proc_none_of_tail hsys hproc htail) hhandling]
      decide
  | @done queue hproc hqueue =>
      cases queueStep_move hqueue with
      | @done mes hhandling =>
          refine Or.inr (Or.inr ⟨Pipeline.waiting_eq (hq.done mes), ?_⟩)
          refine Pipeline.busy_lt_of_stage ?_
          rw [Pipeline.stage_handling hproc hhandling]
          simp [Pipeline.stage, hproc]
  | _ => exact absurd hworker id

/-- **A step of anybody else**: what it accepts waits behind the others, and the thread stands
where it stood.  A step that others take can therefore be ignored in a liveness argument, however
many there are of them. -/
theorem PipelineReached.other_step (h : PipelineReached B P s) (hother : ¬label.IsWorker)
    (hkeeps : KeepsToInterface B.toPoolBuild s label) (hcalls : CallsApart s label)
    (hstep : pipelineStep B.toPoolBuild P s label = some s') :
    s'.waiting = s.waiting ++ s.accepted P label ∧ s'.busy = s.busy ∧
      s'.sys.proc = s.sys.proc := by
  obtain ⟨hq, -⟩ := h.invariant.waiting
  obtain ⟨l', hq', horder⟩ := pipelineStep_order h.invariant hq hkeeps hstep
  have hrequests : (s.requests B.toPoolBuild label).filterMap Request.measurement = [] := by
    cases label with
    | pop | proc _ | done => exact absurd trivial hother
    | other t c =>
        cases c <;> simp [Pipeline.requests, Pipeline.sysLabels, Label.request,
          ApiCall.request, Request.measurement]
    | _ => rfl
  rw [hrequests, List.nil_append] at horder
  have hsame : s'.sys.proc = s.sys.proc ∧ s'.queue.handling = s.queue.handling ∧
      s'.sys.rank = s.sys.rank := by
    cases pipelineStep_move hstep with
    | putNull hqueue | put hqueue =>
        cases queueStep_move hqueue
        exact ⟨rfl, rfl, rfl⟩
    | submit _ hqueue => cases queueStep_move hqueue <;> exact ⟨rfl, rfl, rfl⟩
    | other hsys =>
        have hproc : s.sys.proc = none := hcalls
        have hproc' := proc_of_other hsys
        exact ⟨hproc', rfl, by
          rw [rank_of_proc_none hproc, rank_of_proc_none (hproc'.trans hproc)]⟩
    | pop _ _ _ | proc _ _ _ | keep _ _ _ _ | free _ _ _ _ _ | done _ _ =>
        exact absurd trivial hother
    | _ => exact ⟨rfl, rfl, rfl⟩
  obtain ⟨hproc, hhandling, hrank⟩ := hsame
  refine ⟨(Pipeline.waiting_eq hq').trans horder.symm, ?_, hproc⟩
  rw [Pipeline.busy, Pipeline.busy, Pipeline.stage, Pipeline.stage, hproc, hhandling, hrank]

/-- **As long as there is something to do, the work-queue thread can go on**, unless another
thread keeps the mutex of the pool. -/
theorem PipelineReached.worker_enabled (h : PipelineReached B P s)
    (hmutex : s.pool.allocMtx.lock workQueueTid ≠ none) (hfault : s.sys.fault = none)
    (hrest : ¬s.AtRest) (inp : Inputs Ω) :
    ∃ s', (worker B.toPoolBuild P).step s inp = some s' := by
  cases hproc : s.sys.proc with
  | some p =>
      obtain ⟨sys, hsys⟩ : ∃ sys, procStep P s.sys p inp = some sys :=
        procStep_enabled h.returns.sys.lock hproc
      have hone : sysStep P s.sys (.proc inp) = some sys := by
        simpa [sysStep, hfault, hproc] using hsys
      simp only [worker, workerLabel, hproc, Option.isSome_some, if_true, pipelineStep,
        Option.bind_some, hone]
      split
      · split
        · rename_i hfree
          obtain ⟨pool, hpool⟩ :=
            exists_poolStep_free (B := B.toPoolBuild) ((h.flags.handler p hproc).mp hfree) hmutex
          rw [hpool]
          exact ⟨_, rfl⟩
        · exact ⟨_, rfl⟩
      · exact ⟨_, rfl⟩
  | none =>
      cases hhandling : s.queue.handling with
      | some mes => exact ⟨_, worker_done B.toPoolBuild P hproc hhandling inp⟩
      | none =>
          obtain ⟨mes, hhead⟩ : ∃ mes, s.queue.pending.head = some mes :=
            Option.ne_none_iff_exists'.mp fun hnone => hrest ⟨hproc, hhandling, hnone⟩
          simp [worker, workerLabel, hproc, hhandling, pipelineStep, hhead, queueStep,
            stepPmPollHandler, sysStep, hfault]

/-- **The dispatch in flight** goes on with its measurement, or has returned: then it has
freed the measurement if it was to. -/
theorem returned_or_proc (hstep : pipelineStep B.toPoolBuild P s label = some s')
    (hproc : s.sys.proc = some p) :
    ((∃ p', s'.sys.proc = some p' ∧ p'.mesAddr = p.mesAddr ∧ p'.free = p.free) ∧
        s.frees label = []) ∨
      s'.sys.proc = none ∧ s.finished label = [p.mesAddr] ∧
        s.frees label = if p.free then [p.mesAddr] else [] := by
  cases pipelineStep_move hstep with
  | pop _ _ hsys => exact absurd ((sysStep_poll hsys).1.symm.trans hproc) (by simp)
  | @proc inp q sys hproc₀ hsys htail =>
      obtain rfl := Option.some.inj (hproc₀.symm.trans hproc)
      have hpc : q.pc ≠ .tail := by
        rintro hpc
        rw [hpc] at htail
        cases htail
      exact Or.inl ⟨proc_of_procStep hproc hpc (procStep_of_sysStep hsys hproc),
        by simp [Pipeline.frees, hproc, htail]⟩
  | @keep inp q sys hproc₀ hsys htail hfree =>
      obtain rfl := Option.some.inj (hproc₀.symm.trans hproc)
      exact Or.inr ⟨proc_none_of_tail hsys hproc htail, by simp [Pipeline.finished, hproc, htail],
        by simp [Pipeline.frees, hproc, htail, hfree]⟩
  | @free inp q sys pool hproc₀ hsys htail hfree _ =>
      obtain rfl := Option.some.inj (hproc₀.symm.trans hproc)
      exact Or.inr ⟨proc_none_of_tail hsys hproc htail, by simp [Pipeline.finished, hproc, htail],
        by simp [Pipeline.frees, hproc, htail, hfree]⟩
  | done hnone _ => exact absurd (hnone.symm.trans hproc) (by simp)
  | other hsys => exact Or.inl ⟨⟨p, (proc_of_other hsys).trans hproc, rfl, rfl⟩, rfl⟩
  | _ => exact Or.inl ⟨⟨p, hproc, rfl, rfl⟩, rfl⟩

end Steps

/-! ### Runs that go on -/

/-- **What everybody keeps to**: the step is orderly, no call comes in while a measurement is
dispatched, and no allocation of another thread fails. -/
structure Considerate (B : ItemBuild) (s : Pipeline Ω) (label : PipelineLabel Ω) : Prop where
  orderly : Orderly B s label
  apart : CallsApart s label
  granted : label.GrantedElsewhere

instance Considerate.decidable (B : ItemBuild) (s : Pipeline Ω) (label : PipelineLabel Ω) :
    Decidable (Considerate B s label) :=
  decidable_of_iff (Orderly B s label ∧ CallsApart s label ∧ label.GrantedElsewhere)
    ⟨fun h => ⟨h.1, h.2.1, h.2.2⟩, fun h => ⟨h.1, h.2, h.3⟩⟩

/-- **A run that goes on for ever** and does not forget the work-queue thread: whenever it
could take a step, it takes one sooner or later.  In particular every callback returns. -/
structure Scheduled (B : ItemBuild) (P : Platform) (I : Image B.toPoolBuild)
    (x : ℕ → Pipeline Ω) (l : ℕ → PipelineLabel Ω) : Prop where
  start : x 0 = .init P I
  steps : InfiniteRun (pipelineStep B.toPoolBuild P) x l
  considerate : ∀ n, Considerate B (x n) (l n)
  fair : Fair (pipelineStep B.toPoolBuild P) PipelineLabel.IsWorker x l

section Runs

variable {B : ItemBuild} {P : Platform} {s s' : Pipeline Ω} {label : PipelineLabel Ω}
  {I : Image B.toPoolBuild} {x : ℕ → Pipeline Ω} {l : ℕ → PipelineLabel Ω} {mes n : ℕ}

/-- What holds throughout such a run. -/
structure Going (B : ItemBuild) (P : Platform) (s : Pipeline Ω) : Prop where
  reached : PipelineReached B P s
  unlocked : s.pool.allocMtx.lock workQueueTid ≠ none

theorem Going.step (h : Going B P s) (hlabel : Considerate B s label)
    (hstep : pipelineStep B.toPoolBuild P s label = some s') : Going B P s' :=
  ⟨h.reached.step hlabel.orderly hstep, pipelineStep_unlocked h.unlocked hlabel.granted hstep⟩

theorem Scheduled.going (h : Scheduled B P I x l) (n : ℕ) : Going B P (x n) :=
  infiniteRun_invariant (fun _ _ _ hI hm hs => hI.step hm hs) h.steps h.considerate
    (h.start ▸ ⟨pipelineReached_init P I, unlocked_init P I⟩) n

/-- The work-queue thread has something to do and can do it. -/
theorem Going.enabled [Inhabited Ω] (h : Going B P s) (hfault : s.sys.fault = none)
    (hrest : ¬s.AtRest) :
    ∃ m : PipelineLabel Ω, m.IsWorker ∧ pipelineStep B.toPoolBuild P s m ≠ none := by
  obtain ⟨s', hs'⟩ := h.reached.worker_enabled h.unlocked hfault hrest default
  exact ⟨workerLabel s default, workerLabel_isWorker s default, fun hnone => by
    simp [worker, hnone] at hs'⟩

/-- **Its dispatch comes nearer to its end.** -/
theorem Going.progress {p : Proc Ω} (h : Going B P s) (hproc : s.sys.proc = some p)
    (hlabel : Considerate B s label) (hstep : pipelineStep B.toPoolBuild P s label = some s') :
    s'.sys.fault ≠ none ∨ s'.busy ≤ s.busy ∧ (label.IsWorker → s'.busy < s.busy) := by
  by_cases hworker : label.IsWorker
  · rcases h.reached.worker_step hworker hstep with hcrash | ⟨hnone, -⟩ | ⟨-, hbusy⟩
    · exact Or.inl hcrash
    · exact absurd (hnone.symm.trans hproc) (by simp)
    · exact Or.inr ⟨hbusy.le, fun _ => hbusy⟩
  · obtain ⟨-, hbusy, -⟩ :=
      h.reached.other_step hworker hlabel.orderly.interface hlabel.apart hstep
    exact Or.inr ⟨hbusy.le, fun hw => absurd hw hworker⟩

variable [Inhabited Ω]

/-- **A dispatch returns.** The rank is that of `DispatchReturns`; producers do not raise it, and
nobody calls the registry meanwhile. -/
theorem Scheduled.returns {p : Proc Ω} (h : Scheduled B P I x l)
    (hproc : (x n).sys.proc = some p) :
    (∃ k ≥ n, (x k).sys.fault ≠ none) ∨
      ∃ m ≥ n, (∀ i, n ≤ i → i ≤ m →
          ∃ q, (x i).sys.proc = some q ∧ q.mesAddr = p.mesAddr) ∧
        (x m).finished (l m) = [p.mesAddr] ∧
        (x m).frees (l m) = if p.free then [p.mesAddr] else [] := by
  have henabled : ∀ s, (Going B P s ∧
        ∃ q, s.sys.proc = some q ∧ q.mesAddr = p.mesAddr ∧ q.free = p.free) →
      ¬(s.sys.fault ≠ none ∨ s.sys.proc = none) →
      ∃ m : PipelineLabel Ω, m.IsWorker ∧ pipelineStep B.toPoolBuild P s m ≠ none := by
    rintro s ⟨hgoing, -⟩ hgoal
    push Not at hgoal
    exact hgoing.enabled hgoal.1 fun hrest => hgoal.2 hrest.1
  have hprogress : ∀ (s : Pipeline Ω) (m : PipelineLabel Ω) (s' : Pipeline Ω), (Going B P s ∧
        ∃ q, s.sys.proc = some q ∧ q.mesAddr = p.mesAddr ∧ q.free = p.free) →
      ¬(s.sys.fault ≠ none ∨ s.sys.proc = none) → Considerate B s m →
      pipelineStep B.toPoolBuild P s m = some s' →
      (s'.sys.fault ≠ none ∨ s'.sys.proc = none) ∨
        (Going B P s' ∧
          ∃ q, s'.sys.proc = some q ∧ q.mesAddr = p.mesAddr ∧ q.free = p.free) ∧
        s'.busy ≤ s.busy ∧ (m.IsWorker → s'.busy < s.busy) := by
    rintro s m s' ⟨hgoing, q, hq, hmes, hfree⟩ - hm hstep
    rcases hgoing.progress hq hm hstep with hcrash | hbusy
    · exact Or.inl (Or.inl hcrash)
    · rcases returned_or_proc hstep hq with ⟨⟨q', hq', hmes', hfree'⟩, -⟩ | ⟨hnone, -⟩
      · exact Or.inr ⟨⟨hgoing.step hm hstep, q', hq', hmes'.trans hmes, hfree'.trans hfree⟩,
          hbusy⟩
      · exact Or.inl (Or.inr hnone)
  -- `k` is the first state without the dispatch, so the step before it is the one that ends it
  obtain ⟨k, hk, hgoal, hbefore⟩ := h.steps.eventually h.considerate h.fair
    Pipeline.busy henabled hprogress ⟨h.going n, p, hproc, rfl, rfl⟩
  rcases hgoal with hcrash | hnone
  · exact Or.inl ⟨k, hk, hcrash⟩
  · rcases Nat.eq_or_lt_of_le hk with rfl | hlt
    · exact absurd (hnone.symm.trans hproc) (by simp)
    · obtain ⟨m, rfl⟩ : ∃ m, k = m + 1 := ⟨k - 1, by omega⟩
      obtain ⟨⟨-, q, hq, hmes, hfree⟩, -⟩ := hbefore m (by omega) (by omega)
      rcases returned_or_proc (h.steps m) hq with ⟨⟨p', hp', -⟩, -⟩ | ⟨-, hfinished, hfrees⟩
      · exact absurd (hnone.symm.trans hp') (by simp)
      · refine Or.inr ⟨m, by omega, fun i hi hle => ?_, hmes ▸ hfinished, ?_⟩
        · obtain ⟨⟨-, q', hq', hmes', -⟩, -⟩ := hbefore i hi (by omega)
          exact ⟨q', hq', hmes'⟩
        · rw [hfrees, hmes, hfree]

end Runs

end StepPipeline
