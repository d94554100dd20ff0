import StepPipeline.BrokerLaws
import StepPipeline.DispatchReturns
import StepPipeline.PipelineService

/-!
# The work queue drains, or everything stops

What becomes of the measurements that have been put, when the work-queue thread is left
alone.

* `worker` — the pipeline as a machine that only the work-queue thread moves: it pops an
  item, takes the steps of `step_pm_process`, and returns to the queue;
* `Resting` — nothing is in flight, and some measurements wait;
* `plays_measurement` — the thread handles the first of them as the broker serves it;
* `pipeline_drains` — **left alone, it serves whatever waits, in order, and frees it**;
* `workerLabels` — what the thread does by itself, as a run of the pipeline;
* `Stuck`, `failed_alloc_deadlocks` — once another thread has kept the mutex of the pool, as
  it does when its allocation fails, **a measurement that is to be freed stops the dispatcher
  for good**, and with it every call that locks the registry.

## What "left alone" says

`worker` takes no label of another thread, and none of the labels by which a callback allocates,
writes or puts.  So it speaks of callbacks that keep to the measurement they are given.  For such
callbacks the queue gets no longer while the thread works and `pipeline_drains` can say which
measurements are served: those that wait.  The subscriber of `samples/simple_subscription` is
none of them, as it puts the next measurement each time it is called; the queue is then never
empty, and what is true of it is said over infinite runs in `PipelineFairness`.

## Why one allocation is enough

`step_sp_alloc` returns NULL without giving `step_sp_alloc_mtx` back.  The thread that has made
the call can go on and even allocate again, since the mutex is recursive; everybody else waits.
The work-queue thread is somebody else, and it frees under `step_pm_reg_access`: from there on
two mutexes are kept, one of them by a thread that does not know that it has it.
`GrantedElsewhere` is the condition under which that does not happen.
-/

namespace StepPipeline

open IntrusiveList LabelledRun Behaviour ByteMemory

variable {Ω : Type}

/-! ### The work-queue thread -/

/-- What the work-queue thread does next.  It is a function of the state: at each moment the
thread has one kind of step, and only what the step reads is open. -/
def workerLabel (s : Pipeline Ω) (inp : Inputs Ω) : PipelineLabel Ω :=
  if s.sys.proc.isSome then .proc inp
  else if s.queue.handling.isSome then .done
  else .pop

/-- **The pipeline with the work-queue thread left alone.** It is a `Machine` whose party is that
thread, so that what it does can be described as a behaviour and put together measurement by
measurement. -/
def worker (B : PoolBuild) (P : Platform) :
    Machine (Pipeline Ω) (Inputs Ω) Call UndefinedBehaviour where
  step s inp := pipelineStep B P s (workerLabel s inp)
  mine _ := True
  seen s := calls s.sys.log
  fault s := s.sys.fault

/-- The steps of the work-queue thread. -/
def PipelineLabel.IsWorker : PipelineLabel Ω → Prop
  | .pop | .proc _ | .done => True
  | .alloc _ _ _ | .write _ _ _ | .put _ _ | .submit _ _ | .other _ _ => False

theorem workerLabel_isWorker (s : Pipeline Ω) (inp : Inputs Ω) : (workerLabel s inp).IsWorker := by
  unfold workerLabel
  split
  · trivial
  · split <;> trivial

/-- The thread by itself writes to no measurement and puts none. -/
theorem PipelineLabel.IsWorker.keepsToInterface {label : PipelineLabel Ω} (h : label.IsWorker)
    (B : PoolBuild) (s : Pipeline Ω) : KeepsToInterface B s label := by
  cases label with
  | pop | proc _ | done => trivial
  | _ => exact absurd h id

/-- The blocks in use when the measurements in `gone` have been handled: those whose flag
says so have been freed. -/
def Pool.without (B : PoolBuild) (pool : Pool) (gone : List ℕ) : List LiveMes :=
  pool.live.filter fun b => !(gone.contains b.mes && pool.mem (b.mes + B.freeAfterUse) != 0)

/-! ### The pool -/

section Pool

variable {B : PoolBuild} {s : Pool} {mes : ℕ}

/-- Taking out the one element with a key. -/
theorem eraseP_eq_filter {α β : Type*} [DecidableEq β] {key : α → β} {l : List α}
    (h : l.Pairwise fun a b => key a ≠ key b) (x : β) :
    l.eraseP (fun a => key a == x) = l.filter fun a => key a != x := by
  induction l with
  | nil => rfl
  | cons a l ih =>
      obtain ⟨ha, hl⟩ := List.pairwise_cons.mp h
      by_cases hx : key a = x
      · subst hx
        rw [List.eraseP_cons_of_pos (by simp), List.filter_cons_of_neg (by simp),
          List.filter_eq_self.mpr]
        exact fun b hb => by simpa using (ha b hb).symm
      · rw [List.eraseP_cons_of_neg (by simpa using hx),
          List.filter_cons_of_pos (by simpa using hx),
          ih hl]

/-- Blocks in use have different addresses. -/
theorem PoolInvariant.distinct (h : PoolInvariant B s) :
    s.live.Pairwise fun b c => b.mes ≠ c.mes := by
  refine h.apart.imp fun {b c} hapart heq => ?_
  have hpos := B.size_pos
  unfold LiveMes.Apart at hapart
  omega

/-- Freeing the measurement that comes next. -/
theorem without_concat {pool₀ : Pool} {gone : List ℕ} (hinv : PoolInvariant B s)
    (hlive : s.live = pool₀.without B gone)
    (hflag : (pool₀.mem (mes + B.freeAfterUse) != 0) = true) :
    s.live.eraseP (fun b => b.mes == mes) = pool₀.without B (gone ++ [mes]) := by
  rw [eraseP_eq_filter hinv.distinct, hlive, Pool.without, Pool.without, List.filter_filter]
  refine List.filter_congr fun b _ => ?_
  by_cases hb : b.mes = mes
  · subst hb
    simpa using hflag
  · simp [hb]

/-- A measurement that stays. -/
theorem without_concat_of_kept {pool₀ : Pool} {gone : List ℕ}
    (hflag : (pool₀.mem (mes + B.freeAfterUse) != 0) = false) :
    pool₀.without B gone = pool₀.without B (gone ++ [mes]) := by
  refine List.filter_congr fun b _ => ?_
  by_cases hb : b.mes = mes
  · subst hb
    have hzero : pool₀.mem (b.mes + B.freeAfterUse) = 0 := by simpa using hflag
    simp [hzero]
  · simp [hb]

end Pool

/-! ### A measurement is handled -/

section Handling

variable {B : ItemBuild} {P : Platform} {s s₁ s' : Pipeline Ω} {mes : ℕ} {free : Bool}
  {pool pool₀ : Pool} {b : Broker Ω} {gone rest : List ℕ}

/-- **Nothing is in flight**: the measurements in `waiting` wait, those in `gone` have been
handled.  These are the places between two measurements; `s₁` is the state in which the thread was
left alone. -/
structure Resting (B : ItemBuild) (P : Platform) (pool₀ : Pool) (gone waiting : List ℕ)
    (s : Pipeline Ω) (b : Broker Ω) : Prop where
  quiet : Quiet P s.sys b
  invariant : PipelineInvariant B s
  flags : FlagsKept B.toPoolBuild s
  queue : QueueInvariant s.queue waiting
  handling : s.queue.handling = none
  mutex : s.pool.allocMtx.lock workQueueTid ≠ none
  mem : s.pool.mem = pool₀.mem
  live : s.pool.live = pool₀.without B.toPoolBuild gone

/-- What the dispatch of `mes` leaves of the pipeline. -/
def Pipeline.dispatched (B : PoolBuild) (s : Pipeline Ω) (mes : ℕ) (free : Bool) (pool : Pool)
    (sys : Sys Ω) : Pipeline Ω :=
  if free then s.freed B mes pool sys else s.kept mes sys

/-- **`mes` is being handled**, since the pipeline was in `s₁`; then it is freed, if it is to,
which leaves `pool`.  The dispatcher is on its way, and pool and queue stand still meanwhile. -/
structure InHand (B : ItemBuild) (s₁ : Pipeline Ω) (mes : ℕ) (free : Bool) (pool : Pool)
    (s : Pipeline Ω) : Prop where
  invariant : PipelineInvariant B s
  flags : FlagsKept B.toPoolBuild s
  working : ∀ p, s.sys.proc = some p → p.mesAddr = mes ∧ p.free = free ∧
    s = { s₁ with sys := s.sys }
  dispatched : s.sys.proc = none → s = s₁.dispatched B.toPoolBuild mes free pool s.sys

/-- The queue when the handler has returned for `mes`. -/
def WorkQueue.finished (q : WorkQueue) (mes : ℕ) : WorkQueue :=
  { q with
    work := Function.update q.work mes { q.work mes with running := false }
    handling := none }

/-- The thread returns to the queue. -/
theorem worker_done (B : PoolBuild) (P : Platform) (hproc : s.sys.proc = none)
    (hhandling : s.queue.handling = some mes) (inp : Inputs Ω) :
    (worker B P).step s inp = some { s with queue := s.queue.finished mes } := by
  simp [worker, workerLabel, hproc, hhandling, pipelineStep, queueStep, WorkQueue.finished]

/-- **A step of the dispatcher** is one of the pipeline. -/
theorem InHand.step (h : InHand B s₁ mes free pool s)
    (hpool : free = true →
      poolStep B.toPoolBuild s₁.pool (.free workQueueTid mes) = some pool)
    {inp : Inputs Ω} {sys : Sys Ω} (hsys : sysStep P s.sys (.proc inp) = some sys) :
    ∃ s', (worker B.toPoolBuild P).step s inp = some s' ∧ s'.sys = sys ∧
      InHand B s₁ mes free pool s' := by
  obtain ⟨p, hproc⟩ : ∃ p, s.sys.proc = some p := by
    obtain ⟨-, hmove⟩ := sysStep_move hsys
    cases hmove with
    | proc hproc _ => exact ⟨_, hproc⟩
  obtain ⟨hmes, hfree, hs⟩ := h.working p hproc
  have hlabel : workerLabel s inp = .proc inp := by simp [workerLabel, hproc]
  have hone : ∀ s', pipelineStep B.toPoolBuild P s (.proc inp) = some s' → s'.sys = sys →
      (∀ p, sys.proc = some p → p.mesAddr = mes ∧ p.free = free ∧ s' = { s₁ with sys := sys }) →
      (sys.proc = none → s' = s₁.dispatched B.toPoolBuild mes free pool sys) →
      ∃ s', (worker B.toPoolBuild P).step s inp = some s' ∧ s'.sys = sys ∧
        InHand B s₁ mes free pool s' := by
    rintro s' hs' rfl hworking hdone
    have horderly : Orderly B s (.proc inp) := ⟨trivial, trivial⟩
    refine ⟨s', ?_, rfl, pipelineStep_invariant h.invariant horderly.interface hs',
      pipelineStep_flagsKept h.flags h.invariant horderly.items hs', hworking, hdone⟩
    simp only [worker, hlabel, hs']
  -- only at the end of the dispatch does a step of it touch the pool
  cases htail : p.pc.isTail with
  | false =>
      have hpc : p.pc ≠ .tail := by
        rintro hpc
        rw [hpc] at htail
        cases htail
      obtain ⟨q, hq, hqmes, hqfree⟩ :=
        proc_of_procStep hproc hpc (procStep_of_sysStep hsys hproc)
      refine hone { s with sys := sys } ?_ rfl (fun p' hp' => ?_) fun hnone => ?_
      · simp [pipelineStep, hproc, hsys, htail]
      · obtain rfl := Option.some.inj (hq.symm.trans hp')
        refine ⟨hqmes.trans hmes, hqfree.trans hfree, ?_⟩
        rw [hs]
      · rw [hq] at hnone
        cases hnone
  | true =>
      have hnone := proc_none_of_tail hsys hproc htail
      have hworking : ∀ s' : Pipeline Ω, ∀ p, sys.proc = some p →
          p.mesAddr = mes ∧ p.free = free ∧ s' = { s₁ with sys := sys } := by
        intro s' p hp
        rw [hnone] at hp
        cases hp
      cases free with
      | false =>
          refine hone (s.kept mes sys) ?_ rfl (hworking _) fun _ => ?_
          · simp [pipelineStep, hproc, hsys, htail, hfree, hmes]
          · rw [hs]
            rfl
      | true =>
          have hpool' : poolStep B.toPoolBuild s.pool (.free workQueueTid mes) = some pool := by
            rw [hs]
            exact hpool rfl
          refine hone (s.freed B.toPoolBuild mes pool sys) ?_ rfl (hworking _) fun _ => ?_
          · simp [pipelineStep, hproc, hsys, htail, hfree, hmes, hpool']
          · rw [hs]
            rfl

/-- **The first measurement is taken.** -/
theorem Resting.pop (h : Resting B P pool₀ gone (mes :: rest) s b) (hfree :
    free = (pool₀.mem (mes + B.freeAfterUse) != 0)) :
    ∃ s₁ pool, (∀ inp, (worker B.toPoolBuild P).step s inp = some s₁) ∧
      s₁.sys = s.sys.handed mes (readMes B.toPoolBuild pool₀.mem mes) free ∧
      QueueInvariant s₁.queue rest ∧ s₁.queue.handling = some mes ∧ s₁.pool = s.pool ∧
      InHand B s₁ mes free pool s₁ ∧
      (free = true → poolStep B.toPoolBuild s₁.pool (.free workQueueTid mes) = some pool) := by
  subst hfree
  have hhead : s.queue.pending.head = some mes := h.queue.holds.head_eq
  let queue : WorkQueue :=
    { s.queue with
      pending := s.queue.pending.takeHead s.queue.snode mes
      work := Function.update s.queue.work mes ⟨false, true⟩
      handling := some mes }
  let s₁ : Pipeline Ω :=
    { s with
      queue := queue
      sys := s.sys.handed mes (readMes B.toPoolBuild pool₀.mem mes)
        (pool₀.mem (mes + B.freeAfterUse) != 0)
      holder := Function.update s.holder mes .handler }
  have hqueue : queueStep P s.queue .pop = some queue := by
    rw [queueStep, h.handling, hhead]
  have hstep : pipelineStep B.toPoolBuild P s .pop = some s₁ := by
    have hsys := (h.quiet.process mes (readMes B.toPoolBuild pool₀.mem mes)
      (pool₀.mem (mes + B.freeAfterUse) != 0)).1
    simp only [pipelineStep, hhead, Option.bind_some, hqueue, stepPmPollHandler, h.mem, hsys,
      Option.map_some, s₁]
  have horderly : Orderly B s .pop := ⟨trivial, trivial⟩
  have hinv := pipelineStep_invariant h.invariant horderly.interface hstep
  have hflags := pipelineStep_flagsKept h.flags h.invariant horderly.items hstep
  -- what is to be freed is a block of the pool
  obtain ⟨pool, hpool⟩ : ∃ pool, (pool₀.mem (mes + B.freeAfterUse) != 0) = true →
      poolStep B.toPoolBuild s₁.pool (.free workQueueTid mes) = some pool := by
    by_cases hfree : (pool₀.mem (mes + B.freeAfterUse) != 0) = true
    · obtain ⟨pool, hpool⟩ := exists_poolStep_free ((hflags.handler _ rfl).mp hfree) h.mutex
      exact ⟨pool, fun _ => hpool⟩
    · exact ⟨s₁.pool, fun h => absurd h hfree⟩
  refine ⟨s₁, pool, fun inp => ?_, rfl, h.queue.pop, rfl, rfl,
    ⟨hinv, hflags, fun p hp => ?_, fun hp => ?_⟩, hpool⟩
  · simp [worker, workerLabel, h.quiet.proc, h.handling, hstep]
  · obtain rfl := Option.some.inj hp
    exact ⟨rfl, rfl, rfl⟩
  · cases hp

/-- **The handler has returned**, and the queue has its thread back. -/
theorem InHand.returns (h : InHand B s₁ mes free pool s)
    (hfree : free = (pool₀.mem (mes + B.freeAfterUse) != 0))
    (hpool : free = true →
      poolStep B.toPoolBuild s₁.pool (.free workQueueTid mes) = some pool)
    (hqueue : QueueInvariant s₁.queue rest) (hhandling : s₁.queue.handling = some mes)
    (hmutex : s₁.pool.allocMtx.lock workQueueTid ≠ none) (hmem : s₁.pool.mem = pool₀.mem)
    (hinv : PoolInvariant B.toPoolBuild s₁.pool)
    (hlive : s₁.pool.live = pool₀.without B.toPoolBuild gone) (hquiet : Quiet P s.sys b)
    (inp : Inputs Ω) :
    ∃ s', (worker B.toPoolBuild P).step s inp = some s' ∧ s'.sys = s.sys ∧
      Resting B P pool₀ (gone ++ [mes]) rest s' b := by
  have hs := h.dispatched hquiet.proc
  have hparts : s.queue = s₁.queue ∧ s.pool.allocMtx.lock workQueueTid ≠ none ∧
      s.pool.mem = pool₀.mem ∧ s.pool.live = pool₀.without B.toPoolBuild (gone ++ [mes]) := by
    rw [hs]
    cases free with
    | false => exact ⟨rfl, hmutex, hmem, hlive.trans (without_concat_of_kept hfree.symm)⟩
    | true =>
        obtain ⟨hl, hm, ha⟩ := poolStep_free (hpool rfl)
        exact ⟨rfl, ha ▸ hmutex, hm.trans hmem,
          hl.trans (without_concat hinv hlive hfree.symm)⟩
  obtain ⟨hsame, hmutex', hmem', hlive'⟩ := hparts
  have hstep := worker_done B.toPoolBuild P hquiet.proc (hsame ▸ hhandling) inp
  exact ⟨_, hstep, rfl, hquiet,
    pipelineStep_invariant h.invariant ((workerLabel_isWorker s inp).keepsToInterface _ s) hstep,
    ⟨h.flags.live, h.flags.own, h.flags.handler⟩, (hsame ▸ hqueue).done mes, rfl, hmutex', hmem',
    hlive'⟩

variable [Inhabited Ω]

instance : Inhabited (Inputs Ω) := ⟨.ofWorld default⟩

end Handling

/-! ### The queue drains -/

section Drains

variable {B : ItemBuild} {P : Platform} {s s' : Pipeline Ω} {labels : List (PipelineLabel Ω)}

/-- What holds in every state of an orderly run, whoever has done what when. -/
structure PipelineReached (B : ItemBuild) (P : Platform) (s : Pipeline Ω) : Prop where
  invariant : PipelineInvariant B s
  flags : FlagsKept B.toPoolBuild s
  serviceable : Serviceable P s.sys
  returns : ReturnInvariant P s.sys

theorem pipelineReached_init (P : Platform) (I : Image B.toPoolBuild) :
    PipelineReached B P (.init P I : Pipeline Ω) :=
  ⟨pipelineInvariant_init B P I, flagsKept_init P I, run_serviceable (run_nil _ _),
    returnInvariant_init P⟩

theorem PipelineReached.step {label : PipelineLabel Ω} (h : PipelineReached B P s)
    (horderly : Orderly B s label)
    (hstep : pipelineStep B.toPoolBuild P s label = some s') : PipelineReached B P s' where
  invariant := pipelineStep_invariant h.invariant horderly.interface hstep
  flags := pipelineStep_flagsKept h.flags h.invariant horderly.items hstep
  serviceable :=
    run_preserves (fun _ _ _ h hs => sysStep_serviceable h hs) h.serviceable
      (pipelineStep_sys hstep)
  returns := run_returnInvariant h.returns (pipelineStep_sys hstep)

/-- No allocation of another thread fails. -/
def PipelineLabel.GrantedElsewhere : PipelineLabel Ω → Prop
  | .alloc t _ none => t = workQueueTid
  | _ => True

instance PipelineLabel.GrantedElsewhere.decidable :
    ∀ label : PipelineLabel Ω, Decidable label.GrantedElsewhere
  | .alloc t _ none => inferInstanceAs (Decidable (t = workQueueTid))
  | .alloc _ _ (some _) | .write _ _ _ | .put _ _ | .submit _ _ | .pop | .proc _ | .done
  | .other _ _ => isTrue trivial

/-- As long as none does, the mutex of the pool is there for the work-queue thread. -/
theorem pipelineStep_unlocked {label : PipelineLabel Ω}
    (hmutex : s.pool.allocMtx.lock workQueueTid ≠ none) (hgranted : label.GrantedElsewhere)
    (hstep : pipelineStep B.toPoolBuild P s label = some s') :
    s'.pool.allocMtx.lock workQueueTid ≠ none := by
  cases pipelineStep_move hstep with
  | @refuse t sz pool hpool =>
      obtain rfl : t = workQueueTid := hgranted
      cases poolStep_move hpool with
      | fail hlock =>
          obtain ⟨n, rfl⟩ := KMutex.lock_eq_held hlock
          simp [KMutex.lock]
  | alloc _ hpool =>
      cases poolStep_move hpool with
      | alloc _ _ => exact hmutex
  | write hpool =>
      cases poolStep_move hpool with
      | write => exact hmutex
  | free _ _ _ _ hpool =>
      show _
      rw [Pipeline.freed, (poolStep_free hpool).2.2]
      exact hmutex
  | _ => exact hmutex

theorem unlocked_init (P : Platform) (I : Image B.toPoolBuild) :
    (Pipeline.init P I : Pipeline Ω).pool.allocMtx.lock workQueueTid ≠ none := by
  simp [Pipeline.init, Pool.init, KMutex.lock]

/-- The thread by itself fails no allocation of another thread. -/
theorem PipelineLabel.IsWorker.grantedElsewhere {label : PipelineLabel Ω} (h : label.IsWorker) :
    label.GrantedElsewhere := by
  cases label with
  | pop | proc _ | done => trivial
  | _ => exact absurd h id

variable [Inhabited Ω]

end Drains

/-! ### Everything stops -/

section Stuck

variable {B : ItemBuild} {P : Platform} {s s' : Pipeline Ω} {p : Proc Ω}
  {label : PipelineLabel Ω} {labels : List (PipelineLabel Ω)}

/-- **The dispatcher waits for the mutex of the pool**, which another thread keeps.  It stands in
front of `step_sp_free`, so it holds the registry mutex, and everybody who wants that waits as
well. -/
structure Stuck (s : Pipeline Ω) (p : Proc Ω) : Prop where
  proc : s.sys.proc = some p
  tail : p.pc = .tail
  free : p.free = true
  lock : LockDiscipline s.sys
  leaked : ∃ t n, t ≠ workQueueTid ∧ s.pool.allocMtx = .held t n

/-- What producers do, and the calls that do not lock the registry.  Nothing of it can give back a
mutex that the thread it belongs to has not given back when its call returned. -/
def PipelineLabel.Powerless : PipelineLabel Ω → Prop
  | .other _ c => c.locks = false
  | .pop | .proc _ | .done => False
  | _ => True

/-- A mutex that is kept stays kept. -/
theorem pipelineStep_leaked (h : ∃ t n, t ≠ workQueueTid ∧ s.pool.allocMtx = .held t n)
    (hstep : pipelineStep B.toPoolBuild P s label = some s') :
    ∃ t n, t ≠ workQueueTid ∧ s'.pool.allocMtx = .held t n := by
  obtain ⟨t, n, ht, hheld⟩ := h
  have hkeep : ∀ {label pool}, poolStep B.toPoolBuild s.pool label = some pool →
      ∃ t n, t ≠ workQueueTid ∧ pool.allocMtx = .held t n := by
    intro label pool hpool
    obtain ⟨m, hm⟩ := poolStep_held ⟨n, hheld⟩ hpool
    exact ⟨t, m, ht, hm⟩
  cases pipelineStep_move hstep with
  | refuse hpool => exact hkeep hpool
  | alloc _ hpool => exact hkeep hpool
  | write hpool => exact hkeep hpool
  | free _ _ _ _ hpool => exact hkeep hpool
  | _ => exact ⟨t, n, ht, hheld⟩

/-- Nobody else frees while a thread keeps the mutex. -/
theorem poolStep_free_leaked (h : ∃ t n, t ≠ workQueueTid ∧ s.pool.allocMtx = .held t n)
    (mes : ℕ) : poolStep B.toPoolBuild s.pool (.free workQueueTid mes) = none := by
  obtain ⟨t, n, ht, hheld⟩ := h
  have hlock : s.pool.allocMtx.lock workQueueTid = none := by
    rw [hheld, KMutex.lock, if_neg ht]
  simp [poolStep, stepSpFree, hlock]

/-- A call that does not lock the registry calls nobody. -/
theorem apiCall_events_eq_nil (P : Platform) (pm : PmState Ω) {c : ApiCall Ω}
    (h : c.locks = false) :
    (apiCall P pm c).events = [] := by
  have hset : ∀ on handle, (stepPmSetEnabled P pm on handle).events = [] := by
    intro on handle
    unfold stepPmSetEnabled
    split
    · rfl
    · split <;> rfl
  cases c with
  | enable handle => exact hset true handle
  | disable handle => exact hset false handle
  | register _ _ _ | clear | subscribe _ _ _ _ => cases h

/-- The dispatcher takes no step. -/
theorem Stuck.proc_eq_none (h : Stuck s p) (inp : Inputs Ω) :
    pipelineStep B.toPoolBuild P s (.proc inp) = none := by
  have hpool : poolStep B.toPoolBuild s.pool (.free workQueueTid p.mesAddr) = none :=
    poolStep_free_leaked h.leaked p.mesAddr
  simp only [pipelineStep, h.proc, Option.bind_some, h.tail, Pc.isTail, if_true, h.free, hpool,
    Option.map_none]
  cases sysStep P s.sys (.proc inp) <;> rfl

/-- **The step lemma of the deadlock.** -/
theorem Stuck.step (h : Stuck s p) (hstep : pipelineStep B.toPoolBuild P s label = some s') :
    Stuck s' p ∧ s'.sys.log = s.sys.log ∧ label.Powerless := by
  have hleaked := pipelineStep_leaked h.leaked hstep
  have hsame : s'.sys = s.sys → label.Powerless →
      Stuck s' p ∧ s'.sys.log = s.sys.log ∧ label.Powerless := by
    intro hsys hlabel
    exact ⟨⟨hsys ▸ h.proc, h.tail, h.free, hsys ▸ h.lock, hleaked⟩, by rw [hsys], hlabel⟩
  cases label with
  | proc inp =>
      rw [h.proc_eq_none] at hstep
      cases hstep
  | pop =>
      cases pipelineStep_move hstep with
      | pop _ _ hsys =>
          obtain ⟨-, hmove⟩ := sysStep_move hsys
          cases hmove with
          | process _ _ _ hproc =>
              rw [h.proc] at hproc
              cases hproc
  | done =>
      cases pipelineStep_move hstep with
      | done hproc _ =>
          rw [h.proc] at hproc
          cases hproc
  | other t c =>
      cases pipelineStep_move hstep with
      | other hsys =>
          have hlock := sysStep_lockDiscipline h.lock hsys
          obtain ⟨-, hmove⟩ := sysStep_move hsys
          cases hmove with
          | other _ _ ht hlocks _ =>
              have hpc : p.pc.Locked := h.tail ▸ trivial
              have hfree : c.locks = false := by
                simpa using not_locks_of_locked h.lock h.proc hpc ht hlocks
              refine ⟨⟨h.proc, h.tail, h.free, hlock, hleaked⟩, ?_, hfree⟩
              simp [Sys.afterCall, apiCall_events_eq_nil P s.sys.pm hfree]
  | alloc t sz heap => cases pipelineStep_move hstep <;> exact hsame rfl trivial
  | write mes addr byte => cases pipelineStep_move hstep; exact hsame rfl trivial
  | put t mes => cases pipelineStep_move hstep <;> exact hsame rfl trivial
  | submit t refusal => cases pipelineStep_move hstep; exact hsame rfl trivial

/-- On its way with a measurement that is to be freed, with the mutex of the pool lost.  A step
that leaves defined behaviour is the only way out; otherwise it comes to where it waits. -/
structure Doomed (B : ItemBuild) (P : Platform) (mes : ℕ) (s : Pipeline Ω) : Prop where
  reached : PipelineReached B P s
  leaked : ∃ t n, t ≠ workQueueTid ∧ s.pool.allocMtx = .held t n
  proc : ∃ q, s.sys.proc = some q ∧ q.mesAddr = mes ∧ q.free = true

/-- **A step of the doomed**: nearer to where it waits. -/
theorem Doomed.step {mes : ℕ} (h : Doomed B P mes s)
    (hgoal : ¬(s.sys.fault ≠ none ∨ ∃ q, Stuck s q ∧ q.mesAddr = mes)) (inp : Inputs Ω) :
    ∃ s', (worker B.toPoolBuild P).step s inp = some s' ∧ Doomed B P mes s' ∧
      ((s'.sys.fault ≠ none ∨ ∃ q, Stuck s' q ∧ q.mesAddr = mes) ∨
        s'.sys.rank < s.sys.rank) := by
  push Not at hgoal
  obtain ⟨hfault, hnot⟩ := hgoal
  obtain ⟨q, hq, hmes, hfree⟩ := h.proc
  have hlock := h.reached.returns.sys.lock
  have hpc : q.pc ≠ .tail := fun htail => hnot q ⟨hq, htail, hfree, hlock, h.leaked⟩ hmes
  obtain ⟨sys, hsys⟩ : ∃ sys, procStep P s.sys q inp = some sys := procStep_enabled hlock hq
  have hstep : sysStep P s.sys (.proc inp) = some sys := by
    simpa [sysStep, hfault, hq] using hsys
  have htail : q.pc.isTail = false := by
    cases hpc' : q.pc with
    | tail => exact absurd hpc' hpc
    | _ => rfl
  have hwhole : pipelineStep B.toPoolBuild P s (.proc inp) = some { s with sys := sys } := by
    simp [pipelineStep, hq, hstep, htail]
  obtain ⟨q', hq', hmes', hfree'⟩ := proc_of_procStep hq hpc hsys
  have horderly : Orderly B s (.proc inp) := ⟨trivial, trivial⟩
  refine ⟨{ s with sys := sys }, ?_, ⟨h.reached.step horderly hwhole, h.leaked, q', hq',
    hmes'.trans hmes, hfree'.trans hfree⟩, ?_⟩
  · simpa [worker, workerLabel, hq] using hwhole
  · rcases procStep_rank_lt h.reached.returns hq hsys with hnone | hcrash | hlt
    · rw [hq'] at hnone
      cases hnone
    · exact Or.inl (Or.inl hcrash)
    · exact Or.inr hlt

end Stuck

end StepPipeline
