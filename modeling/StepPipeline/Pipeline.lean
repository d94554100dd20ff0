import StepPipeline.WorkQueue
import StepPipeline.SamplePool
import StepPipeline.Dispatch

/-!
# The pipeline

The sample pool, the work queue and the dispatcher put together.  A measurement is
allocated and filled by a producer, put into the queue, handed to `step_pm_process` by the
work-queue thread and freed there.

* `Holder` — **whose hands a measurement is in**: nobody's, a producer's, those of a call
  of `step_pm_put`, the queue's or the handler's; one at a time;
* `Image` — what memory holds at start-up, with the measurements the application has of its
  own, outside the pool;
* `pipelineStep` — one step of the whole: a step of each component that takes part in it;
* `KeepsToInterface`, `ItemsKept` — the two conditions under which the components do not
  disturb each other, and `Orderly`, which is both;
* `PipelineMove` — what a step can do, component by component;
* `PipelineInvariant` — what is in somebody's hands is in use, and no measurement in use has
  a byte that has been released;
* `FlagsKept` — in orderly runs the flag of a measurement says whether it is from the pool.

## What a label is, and what is a condition

`pipelineStep` refuses only what the code itself, the heap or the kernel refuses: a call
waits for a mutex, the heap does not hand out memory that is in use, a thread inside
`step_pm_put` does not enter it again.  A measurement may be put by anybody at any time and
a byte may be written anywhere, because nothing in the code prevents it.  That an
application writes to a measurement and puts it only while it has it is a condition on its
runs, `KeepsToInterface`, and results that need it say so.  `holder` and `released` are
history variables: no step reads them.

## Why work items lie outside the byte memory

The bytes of `pool.mem` are those of the header, the payload pointer, the payload and the
flag of every measurement.  The link and the flags of the `struct k_work` at its start are
Zephyr's, whose representation is not part of the sources, so they are kept in the queue,
under the address of the measurement.  This is a model of memory as long as nobody writes
to an item but the queue, and that has to be said, because the code does write there:
`step_sp_alloc` clears a payload that it has placed `size * size` bytes behind the
measurement, where another one may begin, and the queue clears the RUNNING flag of an item
behind its handler, when the memory may belong to somebody else.  `ItemsKept` says that
neither happens in a step.  In a run that does not meet it the model says nothing about the
pending list; what the stray write does to the bytes that are modelled, it does there too.

## Why callbacks are pure

A callback is a function of its surroundings, the measurement and the handle.  What it does
besides is a label of its own: `alloc`, `put` and `submit` carry the thread, and the
work-queue thread may take them, and writes, between any two steps of the dispatch it is
busy with.  The subscriber of `samples/simple_subscription`, which allocates the next
measurement and puts it, is such a run.  Where a result speaks of the thread left alone, it
speaks of callbacks that do none of this.  The calls of the registry, the label `other`, are
those of other threads: a callback that registers or subscribes is outside of the model.
-/

namespace StepPipeline

open IntrusiveList LabelledRun ByteMemory

variable {Ω : Type}

/-! ### Measurements in memory -/

/-- The layout with the work item, which is the first member of a measurement. -/
structure ItemBuild extends PoolBuild where
  /-- `sizeof(struct k_work)`. -/
  sizeofWork : ℕ
  sizeofWork_pos : 0 < sizeofWork
  sizeofWork_le : sizeofWork ≤ freeAfterUse

/-- The 32-bit build. -/
def ItemBuild.words32 : ItemBuild where
  toPoolBuild := .words32
  sizeofWork := 16
  sizeofWork_pos := by decide
  sizeofWork_le := by decide

/-- `a` is one of the `len` bytes from `start` on. -/
def InRange (start len a : ℕ) : Prop := start ≤ a ∧ a < start + len

instance (start len a : ℕ) : Decidable (InRange start len a) :=
  inferInstanceAs (Decidable (_ ∧ _))

/-- `a` is a byte of the block of a measurement. -/
def LiveMes.InBlock (B : PoolBuild) (b : LiveMes) (a : ℕ) : Prop :=
  InRange b.mes (B.size + b.sz.toNat) a

instance (B : PoolBuild) (b : LiveMes) (a : ℕ) : Decidable (b.InBlock B a) :=
  inferInstanceAs (Decidable (InRange _ _ _))

/-- `a` is a byte of the queue item of a measurement: of the work item or of the flag behind it.
These are the bytes nobody but the queue and `step_sp_alloc` has any business with. -/
def LiveMes.InItem (B : PoolBuild) (b : LiveMes) (a : ℕ) : Prop :=
  InRange b.mes (B.freeAfterUse + 1) a

instance (B : PoolBuild) (b : LiveMes) (a : ℕ) : Decidable (b.InItem B a) :=
  inferInstanceAs (Decidable (InRange _ _ _))

instance (B : PoolBuild) (b c : LiveMes) : Decidable (LiveMes.Apart B b c) :=
  inferInstanceAs (Decidable (_ ∨ _))

instance (B : PoolBuild) : Std.Symm (LiveMes.Apart B) :=
  ⟨fun _ _ => Or.symm⟩

/-- The measurement at `mes`, as `step_pm_process` finds it: the three words of the header, and as
many payload bytes as the header says, from wherever the payload pointer leads. -/
def readMes (B : PoolBuild) (m : Memory) (mes : ℕ) : StepMeasurement :=
  ⟨readHeader B m mes,
    (List.range (readHeader B m mes).srclenLen.toNat).map fun i => m (readPayload B m mes + i)⟩

/-- `step_pm_poll_handler`: the measurement around the work item is processed, and freed
if its flag says so. -/
def stepPmPollHandler (B : PoolBuild) (m : Memory) (mes : ℕ) : Label Ω :=
  .process mes (readMes B m mes) (m (mes + B.freeAfterUse) != 0)

/-- A measurement the application has of its own, such as a static variable: it is no block of the
pool, and its payload, if any, lies elsewhere.  It is put like any other, and given back behind
its dispatch instead of being freed. -/
def ownMes (mes : ℕ) : LiveMes := ⟨mes, 0, 0⟩

/-- **Memory at start-up**: what the items and the bytes hold, and where the application
has measurements of its own.  They lie apart, and nobody has set their flag. -/
structure Image (B : PoolBuild) where
  snode : Links ℕ
  work : ℕ → KWork
  mem : Memory
  own : List ℕ
  apart : (own.map ownMes).Pairwise (LiveMes.Apart B)
  unflagged : ∀ mes ∈ own, mem (mes + B.freeAfterUse) = 0

/-- Memory that has been cleared, and an application that has no measurements of its own. -/
def Image.cleared (B : PoolBuild) : Image B where
  snode := fun _ => none
  work := fun _ => ⟨false, false⟩
  mem := fun _ => 0
  own := []
  apart := List.Pairwise.nil
  unflagged := fun _ h => absurd h List.not_mem_nil

/-! ### The pipeline -/

/-- Whose hands a measurement is in.  This is a history variable: the code keeps no such record,
and whoever has the address of a measurement can put it or write to it. -/
inductive Holder where
  | nobody
  /-- A producer has allocated it, or has it of its own, and fills it. -/
  | producer
  /-- Thread `t` is inside `step_pm_put`. -/
  | putting (t : Tid)
  /-- It is in the pending list. -/
  | queue
  /-- `step_pm_poll_handler` is at work on it. -/
  | handler
  deriving DecidableEq, Repr

/-- The components together, and the measurements the application has of its own.  `holder`
and `released` are history variables: whose hands every measurement is in, and the bytes
that `step_pm_process` has freed and that have not been allocated again. -/
structure Pipeline (Ω : Type) where
  pool : Pool
  queue : WorkQueue
  sys : Sys Ω
  own : List ℕ
  holder : ℕ → Holder
  released : ℕ → Bool

/-- The pipeline at start-up: the application has its own measurements in its hands. -/
def Pipeline.init {B : PoolBuild} (P : Platform) (I : Image B) : Pipeline Ω where
  pool := { Pool.init with mem := I.mem }
  queue := .init I.snode I.work
  sys := .init P
  own := I.own
  holder := fun mes => if mes ∈ I.own then .producer else .nobody
  released := fun _ => false

/-- The pipeline over cleared memory. -/
def Pipeline.cleared : Pipeline Unit :=
  .init Platform.tests (.cleared .words32)

/-- **The measurements in use**: the blocks of the pool that have not been freed, and those
of the application. -/
def Pipeline.blocks (s : Pipeline Ω) : List LiveMes := s.pool.live ++ s.own.map ownMes

/-- What can happen next. -/
inductive PipelineLabel (Ω : Type) where
  /-- A thread calls `step_sp_alloc(sz)`, and the heap answers. -/
  | alloc (t : Tid) (sz : BitVec 16) (heap : Option ℕ)
  /-- Somebody who goes by the measurement at `mes` writes a byte. -/
  | write (mes addr : ℕ) (byte : BitVec 8)
  /-- A thread calls `step_pm_put`, up to `k_work_init`. -/
  | put (t : Tid) (mes : Option ℕ)
  /-- It submits the item and returns. -/
  | submit (t : Tid) (refusal : Option Refusal)
  /-- The work-queue thread takes the first item and calls its handler. -/
  | pop
  /-- `step_pm_process` takes a step. -/
  | proc (inp : Inputs Ω)
  /-- The handler has returned, and the work-queue thread clears the RUNNING flag. -/
  | done
  /-- Another thread carries out a call of the registry interface. -/
  | other (t : Tid) (c : ApiCall Ω)

/-- The thread is about to free the measurement, if it is to, and to return. -/
def Pc.isTail : Pc Ω → Bool
  | .tail => true
  | _ => false

/-- A measurement that has been allocated: its link field lies in the part that is cleared,
and its memory is no longer released. -/
def Pipeline.allocated (B : PoolBuild) (s : Pipeline Ω) (sz : BitVec 16) (mes : ℕ)
    (pool : Pool) : Pipeline Ω :=
  { s with
    pool := pool
    queue := { s.queue with snode := Function.update s.queue.snode mes none }
    holder := Function.update s.holder mes .producer
    released := fun a => s.released a && !decide (InRange mes (B.size + sz.toNat) a) }

/-- A measurement that `step_pm_process` has freed. -/
def Pipeline.freed (B : PoolBuild) (s : Pipeline Ω) (mes : ℕ) (pool : Pool) (sys : Sys Ω) :
    Pipeline Ω :=
  { s with
    pool := pool
    sys := sys
    holder := Function.update s.holder mes .nobody
    released := fun a => s.released a ||
      s.pool.live.any fun b => b.mes == mes && decide (b.InBlock B a) }

/-- A measurement that `step_pm_process` has not freed: whoever has put it has it back. -/
def Pipeline.kept (s : Pipeline Ω) (mes : ℕ) (sys : Sys Ω) : Pipeline Ω :=
  { s with sys := sys, holder := Function.update s.holder mes .producer }

/-- **What is relied on of the heap, once more**: its memory is none the application has of
its own. -/
def Pipeline.OutsideOwn (B : PoolBuild) (s : Pipeline Ω) (sz : BitVec 16) (mes : ℕ) : Prop :=
  ∀ x ∈ s.own, LiveMes.Apart B ⟨mes, sz, 0⟩ (ownMes x)

instance (B : PoolBuild) (s : Pipeline Ω) (sz : BitVec 16) (mes : ℕ) :
    Decidable (s.OutsideOwn B sz mes) :=
  inferInstanceAs (Decidable (∀ x ∈ s.own, _))

/-- **One step of the pipeline**; `none` if the label is not enabled.  Each case is a step of one
component, or of two that move together: `.pop` takes an item and starts its dispatch, and the
last step of a dispatch frees the measurement in the pool and returns in the dispatcher.  That one
waits for the mutex of the pool, and if it never gets it the dispatch never returns. -/
def pipelineStep (B : PoolBuild) (P : Platform) (s : Pipeline Ω) :
    PipelineLabel Ω → Option (Pipeline Ω)
  | .alloc t sz none =>
      (poolStep B s.pool (.alloc t sz none)).map fun pool => { s with pool := pool }
  | .alloc t sz (some mes) =>
      if s.OutsideOwn B sz mes then
        (poolStep B s.pool (.alloc t sz (some mes))).map (s.allocated B sz mes)
      else none
  | .write _ addr byte =>
      (poolStep B s.pool (.write addr byte)).map fun pool => { s with pool := pool }
  | .put t none => (queueStep P s.queue (.put t none)).map fun queue => { s with queue := queue }
  | .put t (some mes) =>
      (queueStep P s.queue (.put t (some mes))).map fun queue =>
        { s with queue := queue, holder := Function.update s.holder mes (.putting t) }
  | .submit t refusal =>
      (s.queue.putting t).bind fun mes =>
        (queueStep P s.queue (.submit t refusal)).map fun queue =>
          { s with
            queue := queue
            holder := Function.update s.holder mes
              (if refusal.isSome then .producer else .queue) }
  | .pop =>
      s.queue.pending.head.bind fun mes =>
        (queueStep P s.queue .pop).bind fun queue =>
          (sysStep P s.sys (stepPmPollHandler B s.pool.mem mes)).map fun sys =>
            { s with
              queue := queue
              sys := sys
              holder := Function.update s.holder mes .handler }
  | .proc inp =>
      s.sys.proc.bind fun p =>
        (sysStep P s.sys (.proc inp)).bind fun sys =>
          if p.pc.isTail then
            -- `step_sp_free` waits for the mutex of the pool, and `step_pm_process` with it
            if p.free then
              (poolStep B s.pool (.free workQueueTid p.mesAddr)).map fun pool =>
                s.freed B p.mesAddr pool sys
            else some (s.kept p.mesAddr sys)
          else some { s with sys := sys }
  | .done =>
      if s.sys.proc.isNone then
        (queueStep P s.queue .done).map fun queue => { s with queue := queue }
      else none
  | .other t c => (sysStep P s.sys (.other t c)).map fun sys => { s with sys := sys }

/-! ### Conditions on a step -/

/-- `a` is a byte of the payload of the measurement at `mes`, wherever it points. -/
def InPayload (B : PoolBuild) (m : Memory) (mes a : ℕ) : Prop :=
  InRange (readPayload B m mes) (readHeader B m mes).srclenLen.toNat a

instance (B : PoolBuild) (m : Memory) (mes a : ℕ) : Decidable (InPayload B m mes a) :=
  inferInstanceAs (Decidable (InRange _ _ _))

/-- Where a byte may be written by whoever holds the measurement: its header, and its payload
where the payload pointer leads.  That this may be somebody else's memory is the code's doing;
`KeepsToInterface` does not ask producers to know. -/
def MayWrite (B : PoolBuild) (m : Memory) (mes a : ℕ) : Prop :=
  InRange (mes + B.header) sizeofMesHeader a ∨ InPayload B m mes a

instance (B : PoolBuild) (m : Memory) (mes a : ℕ) : Decidable (MayWrite B m mes a) :=
  inferInstanceAs (Decidable (_ ∨ _))

/-- **The application keeps to the interface**: it writes to the header and the payload of a
measurement while it has it, or while a callback is at work on it, and puts a measurement
while it has it, so that it puts it once and has it back only if it is refused or was not to
be freed. -/
def KeepsToInterface (B : PoolBuild) (s : Pipeline Ω) : PipelineLabel Ω → Prop
  | .write mes addr _ =>
      (s.holder mes = .producer ∨ s.holder mes = .handler) ∧ MayWrite B s.pool.mem mes addr
  | .put _ (some mes) => s.holder mes = .producer
  | _ => True

instance KeepsToInterface.decidable (B : PoolBuild) (s : Pipeline Ω) :
    ∀ label, Decidable (KeepsToInterface B s label)
  | .write _ _ _ => inferInstanceAs (Decidable ((_ ∨ _) ∧ _))
  | .put _ (some _) => inferInstanceAs (Decidable (_ = _))
  | .put _ none | .alloc _ _ _ | .submit _ _ | .pop | .proc _ | .done | .other _ _ =>
      isTrue trivial

/-- **Nobody but the queue writes to the queue item of a measurement in use**: no payload
that `step_sp_alloc` clears reaches one, nor a byte that is written; and the RUNNING flag
that is cleared behind a handler lies in no other measurement, since the memory of the item
may have been released and allocated again. -/
def ItemsKept (B : ItemBuild) (s : Pipeline Ω) : PipelineLabel Ω → Prop
  | .alloc _ sz (some mes) =>
      ∀ i < sz.toNat, ∀ b ∈ s.blocks,
        ¬b.InItem B.toPoolBuild (payloadOf B.toPoolBuild mes sz + i)
  | .write _ addr _ => ∀ b ∈ s.blocks, ¬b.InItem B.toPoolBuild addr
  | .done =>
      ∀ mes ∈ s.queue.handling, ∀ b ∈ s.blocks, b.mes ≠ mes →
        ∀ i < B.sizeofWork, ¬b.InBlock B.toPoolBuild (mes + i)
  | _ => True

instance ItemsKept.decidable (B : ItemBuild) (s : Pipeline Ω) :
    ∀ label, Decidable (ItemsKept B s label)
  | .alloc _ _ (some _) => inferInstanceAs (Decidable (∀ i < _, ∀ b ∈ s.blocks, _))
  | .write _ _ _ => inferInstanceAs (Decidable (∀ b ∈ s.blocks, _))
  | .done => inferInstanceAs (Decidable (∀ mes ∈ s.queue.handling, ∀ b ∈ s.blocks, _))
  | .alloc _ _ none | .put _ _ | .submit _ _ | .pop | .proc _ | .other _ _ => isTrue trivial

/-- **An orderly step**: the application keeps to the interface, and the items are the queue's.
The first half is up to the application, the second is not: whether `step_sp_alloc` clears the
item of another measurement depends on where the heap has put the two. -/
structure Orderly (B : ItemBuild) (s : Pipeline Ω) (label : PipelineLabel Ω) : Prop where
  interface : KeepsToInterface B.toPoolBuild s label
  items : ItemsKept B s label

instance Orderly.decidable (B : ItemBuild) (s : Pipeline Ω) (label : PipelineLabel Ω) :
    Decidable (Orderly B s label) :=
  decidable_of_iff (KeepsToInterface B.toPoolBuild s label ∧ ItemsKept B s label)
    ⟨fun h => ⟨h.1, h.2⟩, fun h => ⟨h.1, h.2⟩⟩

/-! ### What a step can do -/

/-- **What a step of the pipeline can do**, component by component.  The results on the pipeline
are proved from these cases, with `PoolMove`, `QueueMove` and `ProcMove` for what happens inside a
component. -/
inductive PipelineMove (B : PoolBuild) (P : Platform) (s : Pipeline Ω) :
    PipelineLabel Ω → Pipeline Ω → Prop
  | refuse {t : Tid} {sz : BitVec 16} {pool : Pool}
      (hpool : poolStep B s.pool (.alloc t sz none) = some pool) :
      PipelineMove B P s (.alloc t sz none) { s with pool := pool }
  | alloc {t : Tid} {sz : BitVec 16} {mes : ℕ} {pool : Pool} (houtside : s.OutsideOwn B sz mes)
      (hpool : poolStep B s.pool (.alloc t sz (some mes)) = some pool) :
      PipelineMove B P s (.alloc t sz (some mes)) (s.allocated B sz mes pool)
  | write {mes addr : ℕ} {byte : BitVec 8} {pool : Pool}
      (hpool : poolStep B s.pool (.write addr byte) = some pool) :
      PipelineMove B P s (.write mes addr byte) { s with pool := pool }
  | putNull {t : Tid} {queue : WorkQueue}
      (hqueue : queueStep P s.queue (.put t none) = some queue) :
      PipelineMove B P s (.put t none) { s with queue := queue }
  | put {t : Tid} {mes : ℕ} {queue : WorkQueue}
      (hqueue : queueStep P s.queue (.put t (some mes)) = some queue) :
      PipelineMove B P s (.put t (some mes))
        { s with queue := queue, holder := Function.update s.holder mes (.putting t) }
  | submit {t : Tid} {refusal : Option Refusal} {mes : ℕ} {queue : WorkQueue}
      (hput : s.queue.putting t = some mes)
      (hqueue : queueStep P s.queue (.submit t refusal) = some queue) :
      PipelineMove B P s (.submit t refusal)
        { s with
          queue := queue
          holder := Function.update s.holder mes
            (if refusal.isSome then .producer else .queue) }
  | pop {mes : ℕ} {queue : WorkQueue} {sys : Sys Ω} (hhead : s.queue.pending.head = some mes)
      (hqueue : queueStep P s.queue .pop = some queue)
      (hsys : sysStep P s.sys (stepPmPollHandler B s.pool.mem mes) = some sys) :
      PipelineMove B P s .pop
        { s with
          queue := queue
          sys := sys
          holder := Function.update s.holder mes .handler }
  | proc {inp : Inputs Ω} {p : Proc Ω} {sys : Sys Ω} (hproc : s.sys.proc = some p)
      (hsys : sysStep P s.sys (.proc inp) = some sys) (htail : p.pc.isTail = false) :
      PipelineMove B P s (.proc inp) { s with sys := sys }
  | keep {inp : Inputs Ω} {p : Proc Ω} {sys : Sys Ω} (hproc : s.sys.proc = some p)
      (hsys : sysStep P s.sys (.proc inp) = some sys) (htail : p.pc.isTail = true)
      (hfree : p.free = false) :
      PipelineMove B P s (.proc inp) (s.kept p.mesAddr sys)
  | free {inp : Inputs Ω} {p : Proc Ω} {sys : Sys Ω} {pool : Pool}
      (hproc : s.sys.proc = some p) (hsys : sysStep P s.sys (.proc inp) = some sys)
      (htail : p.pc.isTail = true) (hfree : p.free = true)
      (hpool : poolStep B s.pool (.free workQueueTid p.mesAddr) = some pool) :
      PipelineMove B P s (.proc inp) (s.freed B p.mesAddr pool sys)
  | done {queue : WorkQueue} (hproc : s.sys.proc = none)
      (hqueue : queueStep P s.queue .done = some queue) :
      PipelineMove B P s .done { s with queue := queue }
  | other {t : Tid} {c : ApiCall Ω} {sys : Sys Ω}
      (hsys : sysStep P s.sys (.other t c) = some sys) :
      PipelineMove B P s (.other t c) { s with sys := sys }

section Step

variable {B : PoolBuild} {P : Platform} {s s' : Pipeline Ω} {label : PipelineLabel Ω}

theorem pipelineStep_move (h : pipelineStep B P s label = some s') :
    PipelineMove B P s label s' := by
  cases label with
  | alloc t sz heap =>
      cases heap with
      | none =>
          obtain ⟨pool, hpool, rfl⟩ := Option.map_eq_some_iff.mp h
          exact .refuse hpool
      | some mes =>
          rw [pipelineStep] at h
          split at h
          · rename_i houtside
            obtain ⟨pool, hpool, rfl⟩ := Option.map_eq_some_iff.mp h
            exact .alloc houtside hpool
          · cases h
  | write mes addr byte =>
      rw [pipelineStep, Option.map_eq_some_iff] at h
      obtain ⟨pool, hpool, rfl⟩ := h
      exact .write hpool
  | put t mes =>
      cases mes with
      | none =>
          obtain ⟨queue, hqueue, rfl⟩ := Option.map_eq_some_iff.mp h
          exact .putNull hqueue
      | some mes =>
          obtain ⟨queue, hqueue, rfl⟩ := Option.map_eq_some_iff.mp h
          exact .put hqueue
  | submit t refusal =>
      obtain ⟨mes, hput, h⟩ := Option.bind_eq_some_iff.mp h
      obtain ⟨queue, hqueue, rfl⟩ := Option.map_eq_some_iff.mp h
      exact .submit hput hqueue
  | pop =>
      obtain ⟨mes, hhead, h⟩ := Option.bind_eq_some_iff.mp h
      obtain ⟨queue, hqueue, h⟩ := Option.bind_eq_some_iff.mp h
      obtain ⟨sys, hsys, rfl⟩ := Option.map_eq_some_iff.mp h
      exact .pop hhead hqueue hsys
  | proc inp =>
      obtain ⟨p, hproc, h⟩ := Option.bind_eq_some_iff.mp h
      obtain ⟨sys, hsys, h⟩ := Option.bind_eq_some_iff.mp h
      split at h
      · rename_i htail
        split at h
        · rename_i hfree
          obtain ⟨pool, hpool, rfl⟩ := Option.map_eq_some_iff.mp h
          exact .free hproc hsys htail hfree hpool
        · rename_i hfree
          exact Option.some.inj h ▸ .keep hproc hsys htail (by simpa using hfree)
      · rename_i htail
        exact Option.some.inj h ▸ .proc hproc hsys (by simpa using htail)
  | done =>
      rw [pipelineStep] at h
      split at h
      · rename_i hproc
        obtain ⟨queue, hqueue, rfl⟩ := Option.map_eq_some_iff.mp h
        exact .done (by simpa using hproc) hqueue
      · cases h
  | other t c =>
      obtain ⟨sys, hsys, rfl⟩ := Option.map_eq_some_iff.mp h
      exact .other hsys

end Step

/-! ### Whose hands a measurement is in -/

/-- **The invariant of the pipeline.** The blocks lie apart, the queue is in order, holders and
queue agree, and nothing that is in use has been released. -/
structure PipelineInvariant (B : ItemBuild) (s : Pipeline Ω) : Prop where
  pool : PoolInvariant B.toPoolBuild s.pool
  apart : s.blocks.Pairwise (LiveMes.Apart B.toPoolBuild)
  /-- No measurement in use has a byte that has been released. -/
  released : ∀ a, s.released a = true → ∀ b ∈ s.blocks, ¬b.InBlock B.toPoolBuild a
  /-- What is in somebody's hands is in use. -/
  held : ∀ mes, s.holder mes ≠ .nobody → ∃ b ∈ s.blocks, b.mes = mes
  queue : ∃ l, QueueInvariant s.queue l ∧ ∀ mes ∈ l, s.holder mes = .queue
  putting : ∀ t mes, s.queue.putting t = some mes → s.holder mes = .putting t
  handler : ∀ p, s.sys.proc = some p →
    s.holder p.mesAddr = .handler ∧ s.queue.handling = some p.mesAddr
  /-- The item that is handled is in use or has been released. -/
  handled : ∀ mes, s.queue.handling = some mes → ∀ a, InRange mes B.sizeofWork a →
    s.released a = true ∨ ∃ b ∈ s.blocks, b.InBlock B.toPoolBuild a

section Invariant

variable {B : ItemBuild} {P : Platform} {s s' : Pipeline Ω} {label : PipelineLabel Ω}

/-- Blocks of the pool are in use. -/
theorem Pipeline.mem_blocks_of_live {b : LiveMes} (h : b ∈ s.pool.live) : b ∈ s.blocks :=
  List.mem_append_left _ h

/-- What is in use is a block of the pool, or one of the application's own measurements. -/
theorem Pipeline.mem_blocks {b : LiveMes} :
    b ∈ s.blocks ↔ b ∈ s.pool.live ∨ ∃ x ∈ s.own, ownMes x = b := by
  rw [Pipeline.blocks, List.mem_append, List.mem_map]

theorem pipelineInvariant_init (B : ItemBuild) (P : Platform) (I : Image B.toPoolBuild) :
    PipelineInvariant B (Pipeline.init P I : Pipeline Ω) where
  pool := ⟨List.Pairwise.nil, fun _ hb => absurd hb List.not_mem_nil, Nat.zero_le _⟩
  apart := I.apart
  released a h := by cases h
  held mes h := by
    have hown : mes ∈ I.own := by
      by_contra hnot
      exact h (if_neg hnot)
    exact ⟨ownMes mes, Pipeline.mem_blocks.mpr (Or.inr ⟨mes, hown, rfl⟩), rfl⟩
  queue := ⟨[], queueInvariant_init I.snode I.work, by simp⟩
  putting t mes h := by cases h
  handler p h := by cases h
  handled mes h := by cases h

theorem PoolBuild.freeAfterUse_lt_size (B : PoolBuild) : B.freeAfterUse < B.size := by
  have hflag := B.freeAfterUse_lt
  have hheader := B.header_le
  have hpayload := B.payload_le
  omega

theorem ItemBuild.sizeofWork_le_size (B : ItemBuild) : B.sizeofWork ≤ B.size :=
  B.sizeofWork_le.trans B.freeAfterUse_lt_size.le

/-- The bytes of a measurement in somebody's hands are bytes of a measurement in use. -/
theorem PipelineInvariant.inBlock (h : PipelineInvariant B s) {mes a : ℕ}
    (hheld : s.holder mes ≠ .nobody) (ha : InRange mes B.size a) :
    ∃ b ∈ s.blocks, b.InBlock B.toPoolBuild a := by
  obtain ⟨b, hb, rfl⟩ := h.held mes hheld
  exact ⟨b, hb, ha.1, by have := ha.2; omega⟩

/-- A measurement in somebody's hands has not been released. -/
theorem PipelineInvariant.not_released (h : PipelineInvariant B s) {mes a : ℕ}
    (hheld : s.holder mes ≠ .nobody) (ha : InRange mes B.size a) : s.released a = false := by
  obtain ⟨b, hb, hin⟩ := h.inBlock hheld ha
  by_contra hne
  exact h.released a (by simpa using hne) b hb hin

theorem InRange.work {mes a : ℕ} (h : InRange mes B.sizeofWork a) : InRange mes B.size a :=
  ⟨h.1, by have := B.sizeofWork_le_size; have := h.2; omega⟩

/-- Two measurements apart have no byte in common. -/
theorem LiveMes.Apart.not_inBlock {B : PoolBuild} {b c : LiveMes} {a : ℕ}
    (h : LiveMes.Apart B b c) (hb : b.InBlock B a) : ¬c.InBlock B a := by
  intro hc
  unfold LiveMes.Apart at h
  unfold LiveMes.InBlock InRange at hb hc
  omega

/-- They begin in different places. -/
theorem LiveMes.Apart.mes_ne {B : PoolBuild} {b c : LiveMes} (h : LiveMes.Apart B b c) :
    b.mes ≠ c.mes := by
  have hpos := B.size_pos
  unfold LiveMes.Apart at h
  omega

/-- Different measurements in use have no byte in common. -/
theorem PipelineInvariant.not_inBlock (h : PipelineInvariant B s) {b c : LiveMes} {a : ℕ}
    (hb : b ∈ s.blocks) (hc : c ∈ s.blocks) (hne : c.mes ≠ b.mes)
    (ha : b.InBlock B.toPoolBuild a) : ¬c.InBlock B.toPoolBuild a := by
  have hbc : b ≠ c := by
    rintro rfl
    exact hne rfl
  exact (h.apart.forall hb hc hbc).not_inBlock ha

/-- The address of a measurement in use says which one it is. -/
theorem PipelineInvariant.eq_of_mes_eq (h : PipelineInvariant B s) {b c : LiveMes}
    (hb : b ∈ s.blocks) (hc : c ∈ s.blocks) (hmes : b.mes = c.mes) : b = c := by
  by_contra hbc
  exact (h.apart.forall hb hc hbc).mes_ne hmes

/-- **What is in somebody's hands is from the pool or the application's own**, not both. -/
theorem PipelineInvariant.live_iff_not_own (h : PipelineInvariant B s) {mes : ℕ}
    (hheld : s.holder mes ≠ .nobody) : (∃ b ∈ s.pool.live, b.mes = mes) ↔ mes ∉ s.own := by
  constructor
  · rintro ⟨b, hb, rfl⟩ hown
    have hapart := h.apart
    rw [Pipeline.blocks, List.pairwise_append] at hapart
    exact (hapart.2.2 b hb _ (List.mem_map_of_mem hown)).mes_ne rfl
  · intro hown
    obtain ⟨b, hb, rfl⟩ := h.held mes hheld
    rcases Pipeline.mem_blocks.mp hb with hb | ⟨x, hx, rfl⟩
    · exact ⟨b, hb, rfl⟩
    · exact absurd hx hown

/-- The first that waits is in the queue's hands. -/
theorem PipelineInvariant.head_held (h : PipelineInvariant B s) {mes : ℕ}
    (hhead : s.queue.pending.head = some mes) : s.holder mes ≠ .nobody := by
  obtain ⟨l, hq, hl⟩ := h.queue
  rw [hq.holds.head_eq] at hhead
  simp [hl mes (List.mem_of_mem_head? hhead)]

/-- What is passed on was in use. -/
theorem PipelineInvariant.held_update (h : PipelineInvariant B s) {mes : ℕ}
    (hheld : s.holder mes ≠ .nobody) (whom : Holder) :
    ∀ m, Function.update s.holder mes whom m ≠ .nobody → ∃ b ∈ s.blocks, b.mes = m := by
  intro m hm
  by_cases hmm : m = mes
  · exact hmm ▸ h.held mes hheld
  · rw [Function.update_of_ne hmm] at hm
    exact h.held m hm

/-- What is in other hands stays there when a measurement is passed on. -/
theorem holder_update {holder : ℕ → Holder} {m mes : ℕ} {at' : Holder} (hm : holder m = at')
    (hne : holder mes ≠ at') (whom : Holder) : Function.update holder mes whom m = at' := by
  have hmm : m ≠ mes := by
    rintro rfl
    exact hne hm
  rw [Function.update_of_ne hmm]
  exact hm

/-- **A producer puts its measurement.** -/
theorem PipelineInvariant.put (h : PipelineInvariant B s) {t : Tid} {mes : ℕ}
    {queue : WorkQueue} (hholder : s.holder mes = .producer)
    (hqueue : queueStep P s.queue (.put t (some mes)) = some queue) :
    PipelineInvariant B
      { s with queue := queue, holder := Function.update s.holder mes (.putting t) } := by
  obtain ⟨l, hinv, hl⟩ := h.queue
  have hout : mes ∉ l := fun hmem => by simp [hl mes hmem] at hholder
  cases queueStep_move hqueue with
  | init hfree =>
      refine ⟨h.pool, h.apart, h.released, h.held_update (by simp [hholder]) _,
        ⟨l, hinv.put hout t, fun m hm => holder_update (hl m hm) (by simp [hholder]) _⟩,
        fun u m (hput : Function.update s.queue.putting t (some mes) u = some m) => ?_,
        fun p hp => ?_, h.handled⟩
      · by_cases hu : u = t
        · rw [hu, Function.update_self] at hput
          rw [hu, ← Option.some.inj hput]
          exact Function.update_self _ _ _
        · rw [Function.update_of_ne hu] at hput
          exact holder_update (h.putting u m hput) (by simp [hholder]) _
      · exact ⟨holder_update (h.handler p hp).1 (by simp [hholder]) _, (h.handler p hp).2⟩

/-- **A thread leaves `step_pm_put`**, and has the measurement back if it was refused. -/
theorem PipelineInvariant.submit (h : PipelineInvariant B s) {t : Tid} {mes : ℕ}
    {refusal : Option Refusal} {queue : WorkQueue} (hput : s.queue.putting t = some mes)
    (hqueue : queueStep P s.queue (.submit t refusal) = some queue) :
    PipelineInvariant B
      { s with
        queue := queue
        holder := Function.update s.holder mes
          (if refusal.isSome then .producer else .queue) } := by
  obtain ⟨l, hinv, hl⟩ := h.queue
  have hholder := h.putting t mes hput
  have hout : mes ∉ l := fun hmem => by simp [hl mes hmem] at hholder
  have hothers : ∀ whom u m, Function.update s.queue.putting t none u = some m →
      Function.update s.holder mes whom m = .putting u := by
    intro whom u m hum
    have hu : u ≠ t := by
      rintro rfl
      rw [Function.update_self] at hum
      cases hum
    rw [Function.update_of_ne hu] at hum
    exact holder_update (h.putting u m hum) (by simpa [hholder] using Ne.symm hu) _
  have hhandler : ∀ whom p, s.sys.proc = some p →
      Function.update s.holder mes whom p.mesAddr = .handler ∧
        s.queue.handling = some p.mesAddr :=
    fun whom p hp => ⟨holder_update (h.handler p hp).1 (by simp [hholder]) _, (h.handler p hp).2⟩
  have hheld : s.holder mes ≠ .nobody := by simp [hholder]
  cases queueStep_move hqueue with
  | refused r _ =>
      exact ⟨h.pool, h.apart, h.released, h.held_update hheld _,
        ⟨l, hinv.returns t, fun m hm => holder_update (hl m hm) (by simp [hholder]) _⟩,
        hothers _, hhandler _, h.handled⟩
  | @again _ mes' hput' hqueued =>
      obtain rfl := Option.some.inj (hput.symm.trans hput')
      exact absurd (hinv.putting t mes hput hqueued) hout
  | @append _ mes' hput' hidle =>
      obtain rfl := Option.some.inj (hput.symm.trans hput')
      have happ := @QueueInvariant.append P s.queue l hinv mes hidle
      refine ⟨h.pool, h.apart, h.released, h.held_update hheld _,
        ⟨l ++ [mes], happ.returns t, fun m hm => ?_⟩, hothers _, hhandler _, h.handled⟩
      rcases List.mem_append.mp hm with hm | hm
      · exact holder_update (hl m hm) (by simp [hholder]) _
      · rw [List.mem_singleton.mp hm]
        exact Function.update_self _ _ _

/-- **The work-queue thread takes a measurement.** -/
theorem PipelineInvariant.pop (h : PipelineInvariant B s) {mes : ℕ} {queue : WorkQueue}
    {sys : Sys Ω} (hhead : s.queue.pending.head = some mes)
    (hqueue : queueStep P s.queue .pop = some queue)
    (hsys : sysStep P s.sys (stepPmPollHandler B.toPoolBuild s.pool.mem mes) = some sys) :
    PipelineInvariant B
      { s with
        queue := queue
        sys := sys
        holder := Function.update s.holder mes .handler } := by
  obtain ⟨l, hinv, hl⟩ := h.queue
  rw [hinv.holds.head_eq] at hhead
  obtain ⟨rest, rfl⟩ := List.head?_eq_some_iff.mp hhead
  have hholder := hl mes List.mem_cons_self
  have hout := (List.nodup_cons.mp hinv.holds.nodup).1
  cases queueStep_move hqueue with
  | @pop mes' hfree hhead' =>
      obtain rfl : mes = mes' := by
        rw [hinv.holds.head_eq] at hhead'
        exact Option.some.inj hhead'
      refine ⟨h.pool, h.apart, h.released, h.held_update (by simp [hholder]) _,
        ⟨rest, hinv.pop, fun m hm => ?_⟩,
        fun u m hput => holder_update (h.putting u m hput) (by simp [hholder]) _,
        fun p hp => ?_, fun m hm a ha => ?_⟩
      · have hne : m ≠ mes := fun heq => hout (heq ▸ hm)
        show Function.update s.holder mes .handler m = .queue
        rw [Function.update_of_ne hne]
        exact hl m (List.mem_cons_of_mem mes hm)
      · obtain ⟨-, hmove⟩ := sysStep_move hsys
        cases hmove with
        | process _ _ _ _ =>
            obtain rfl := Option.some.inj hp
            exact ⟨Function.update_self _ _ _, rfl⟩
      · obtain rfl := Option.some.inj hm
        exact Or.inr (h.inBlock (by simp [hholder]) ha.work)

/-- Memory that the heap hands out lies apart from everything in use. -/
theorem PipelineInvariant.apart_of_handsOut {sz : BitVec 16} {mes c : ℕ}
    (hout : s.pool.HandsOut B.toPoolBuild sz mes) (houtside : s.OutsideOwn B.toPoolBuild sz mes) :
    ∀ b ∈ s.blocks, LiveMes.Apart B.toPoolBuild ⟨mes, sz, c⟩ b := by
  intro b hb
  rcases Pipeline.mem_blocks.mp hb with hb | ⟨x, hx, rfl⟩
  · exact hout.2.2.1 b hb
  · exact houtside x hx

/-- …so it is in nobody's hands. -/
theorem PipelineInvariant.nobody_of_handsOut (h : PipelineInvariant B s) {sz : BitVec 16}
    {mes : ℕ} (hout : s.pool.HandsOut B.toPoolBuild sz mes)
    (houtside : s.OutsideOwn B.toPoolBuild sz mes) : s.holder mes = .nobody := by
  by_contra hheld
  obtain ⟨b, hb, rfl⟩ := h.held mes hheld
  exact (PipelineInvariant.apart_of_handsOut (c := 0) hout houtside b hb).mes_ne rfl

/-- **A producer allocates a measurement.** -/
theorem PipelineInvariant.alloc (h : PipelineInvariant B s) {t : Tid} {sz : BitVec 16}
    {mes : ℕ} {pool : Pool} (houtside : s.OutsideOwn B.toPoolBuild sz mes)
    (hpool : poolStep B.toPoolBuild s.pool (.alloc t sz (some mes)) = some pool) :
    PipelineInvariant B (s.allocated B.toPoolBuild sz mes pool) := by
  have hinv' := poolStep_invariant h.pool hpool
  cases poolStep_move hpool with
  | alloc hlock hout =>
      have hnobody := h.nobody_of_handsOut hout houtside
      obtain ⟨l, hinv, hl⟩ := h.queue
      have hne : ∀ m ∈ l, m ≠ mes := by
        rintro m hm rfl
        simp [hl m hm] at hnobody
      have hlinked : QueueInvariant
          { s.queue with snode := Function.update s.queue.snode mes none } l :=
        ⟨hinv.holds.congr fun m hm => Function.update_of_ne (hne m hm) _ _, hinv.queued,
          hinv.putting⟩
      refine ⟨hinv', List.Pairwise.cons (PipelineInvariant.apart_of_handsOut hout houtside) h.apart,
        fun a ha b hb hin => ?_, fun m hm => ?_,
        ⟨l, hlinked, fun m hm => holder_update (hl m hm) (by simp [hnobody]) _⟩,
        fun u m hput => holder_update (h.putting u m hput) (by simp [hnobody]) _,
        fun p hp => ⟨holder_update (h.handler p hp).1 (by simp [hnobody]) _,
          (h.handler p hp).2⟩, fun m hm a ha => ?_⟩
      · -- the new block has no released bytes any more, the others had none
        obtain ⟨ha, hnew⟩ : s.released a = true ∧ ¬InRange mes (B.size + sz.toNat) a := by
          simpa [Pipeline.allocated] using ha
        rcases List.mem_cons.mp hb with rfl | hb
        · exact hnew hin
        · exact h.released a ha b hb hin
      · by_cases hmm : m = mes
        · exact ⟨_, List.mem_cons_self, hmm.symm⟩
        · have hm' : s.holder m ≠ .nobody := by
            simpa [Pipeline.allocated, Function.update_of_ne hmm] using hm
          obtain ⟨b, hb, hbm⟩ := h.held m hm'
          exact ⟨b, List.mem_cons_of_mem _ hb, hbm⟩
      · by_cases hnew : InRange mes (B.size + sz.toNat) a
        · exact Or.inr ⟨_, List.mem_cons_self, hnew⟩
        · rcases h.handled m hm a ha with hreleased | ⟨b, hb, hin⟩
          · left
            simp [Pipeline.allocated, hreleased, hnew]
          · exact Or.inr ⟨b, List.mem_cons_of_mem _ hb, hin⟩

/-- **`step_pm_process` frees the measurement.** -/
theorem PipelineInvariant.free (h : PipelineInvariant B s) {mes : ℕ} {pool : Pool}
    {sys : Sys Ω} (hheld : s.holder mes = .handler) (hproc : sys.proc = none)
    (hpool : poolStep B.toPoolBuild s.pool (.free workQueueTid mes) = some pool) :
    PipelineInvariant B (s.freed B.toPoolBuild mes pool sys) := by
  have hinv' := poolStep_invariant h.pool hpool
  cases poolStep_move hpool with
  | @free _ before after b hlock hlive hfirst =>
      -- the blocks in use are `b`, which goes, and the others, which stay
      let others : List LiveMes := before ++ after ++ s.own.map ownMes
      have hblocks : s.blocks = before ++ b :: (after ++ s.own.map ownMes) := by
        rw [Pipeline.blocks, hlive, List.append_assoc, List.cons_append]
      have hsplit : ∀ c, c ∈ s.blocks ↔ c = b ∨ c ∈ others := by
        intro c
        simp only [hblocks, others, List.mem_append, List.mem_cons, or_assoc]
        exact or_left_comm
      have hapart := h.apart
      rw [hblocks] at hapart
      obtain ⟨hothers, hrest⟩ : (∀ c ∈ others, LiveMes.Apart B.toPoolBuild b c) ∧
          others.Pairwise (LiveMes.Apart B.toPoolBuild) := by
        have hcons := (List.pairwise_middle Or.symm).mp hapart
        rw [← List.append_assoc] at hcons
        exact List.pairwise_cons.mp hcons
      have hb : b ∈ s.pool.live := hlive ▸ List.mem_append_right _ List.mem_cons_self
      have hreleased : ∀ a, (s.released a ||
          s.pool.live.any fun c => c.mes == b.mes && decide (c.InBlock B.toPoolBuild a)) = true ↔
          s.released a = true ∨ b.InBlock B.toPoolBuild a := by
        intro a
        simp only [Bool.or_eq_true, List.any_eq_true, Bool.and_eq_true, beq_iff_eq,
          decide_eq_true_eq]
        refine or_congr_right ⟨?_, fun hin => ⟨b, hb, rfl, hin⟩⟩
        rintro ⟨c, hc, hcm, hin⟩
        rwa [← h.eq_of_mes_eq (Pipeline.mem_blocks_of_live hc) (Pipeline.mem_blocks_of_live hb) hcm]
      obtain ⟨l, hinv, hl⟩ := h.queue
      refine ⟨hinv', hrest, fun a ha c hc hin => ?_, fun m hm => ?_,
        ⟨l, hinv, fun m hm => holder_update (hl m hm) (by simp [hheld]) _⟩,
        fun u m hput => holder_update (h.putting u m hput) (by simp [hheld]) _,
        fun p hp => by simp [Pipeline.freed, hproc] at hp, fun m hm a ha => ?_⟩
      · rcases (hreleased a).mp ha with ha | ha
        · exact h.released a ha c ((hsplit c).mpr (Or.inr hc)) hin
        · exact (hothers c hc).not_inBlock ha hin
      · have hmb : m ≠ b.mes := by
          rintro rfl
          exact hm (Function.update_self _ _ _)
        have hm' : s.holder m ≠ .nobody := by
          simpa [Pipeline.freed, Function.update_of_ne hmb] using hm
        obtain ⟨c, hc, rfl⟩ := h.held m hm'
        rcases (hsplit c).mp hc with rfl | hc
        · exact absurd rfl hmb
        · exact ⟨c, hc, rfl⟩
      · rcases h.handled m hm a ha with ha | ⟨c, hc, hin⟩
        · exact Or.inl ((hreleased a).mpr (Or.inl ha))
        · rcases (hsplit c).mp hc with rfl | hc
          · exact Or.inl ((hreleased a).mpr (Or.inr hin))
          · exact Or.inr ⟨c, hc, hin⟩

/-- The thread in flight goes on with its measurement. -/
theorem mesAddr_of_sysStep {s s' : Sys Ω} {p p' : Proc Ω} {inp : Inputs Ω}
    (hstep : sysStep P s (.proc inp) = some s') (hproc : s.proc = some p)
    (hproc' : s'.proc = some p') : p'.mesAddr = p.mesAddr ∧ p'.free = p.free := by
  have hone := procStep_of_sysStep hstep hproc
  by_cases hpc : p.pc = .tail
  · rw [(procStep_tail hpc hone).1] at hproc'
    cases hproc'
  · obtain ⟨q, hq, hmes, hfree⟩ := proc_of_procStep hproc hpc hone
    obtain rfl := Option.some.inj (hq.symm.trans hproc')
    exact ⟨hmes, hfree⟩

/-- Behind the loop the thread returns. -/
theorem proc_none_of_tail {s s' : Sys Ω} {p : Proc Ω} {inp : Inputs Ω}
    (hstep : sysStep P s (.proc inp) = some s') (hproc : s.proc = some p)
    (htail : p.pc.isTail = true) : s'.proc = none := by
  have hpc : p.pc = .tail := by
    cases hpc : p.pc <;> simp_all [Pc.isTail]
  exact (procStep_tail hpc (procStep_of_sysStep hstep hproc)).1

/-- The work-queue thread hands the measurement it has taken to `step_pm_process`. -/
theorem sysStep_poll {s s' : Sys Ω} {B : PoolBuild} {m : Memory} {mes : ℕ}
    (h : sysStep P s (stepPmPollHandler B m mes) = some s') :
    s.proc = none ∧ ∃ p, s'.proc = some p ∧ p.mesAddr = mes ∧
      p.free = (m (mes + B.freeAfterUse) != 0) := by
  obtain ⟨-, hmove⟩ := sysStep_move h
  cases hmove with
  | process _ _ _ hproc => exact ⟨hproc, _, rfl, rfl, rfl⟩

/-- A call of the registry interface leaves the thread where it is. -/
theorem proc_of_other {s s' : Sys Ω} {t : Tid} {c : ApiCall Ω}
    (h : sysStep P s (.other t c) = some s') : s'.proc = s.proc := by
  obtain ⟨-, hmove⟩ := sysStep_move h
  cases hmove with
  | other _ _ _ _ _ => rfl

/-- **The step lemma of the pipeline.**  Only `step_pm_put` asks for a condition: an item
that is initialised while it is linked into the pending list cuts it. -/
theorem pipelineStep_invariant (h : PipelineInvariant B s)
    (hkeeps : KeepsToInterface B.toPoolBuild s label)
    (hstep : pipelineStep B.toPoolBuild P s label = some s') : PipelineInvariant B s' := by
  cases pipelineStep_move hstep with
  | refuse hpool =>
      have hinv' := poolStep_invariant h.pool hpool
      cases poolStep_move hpool with
      | fail _ =>
          exact ⟨hinv', h.apart, h.released, h.held, h.queue, h.putting, h.handler, h.handled⟩
  | alloc houtside hpool => exact h.alloc houtside hpool
  | write hpool =>
      have hinv' := poolStep_invariant h.pool hpool
      cases poolStep_move hpool with
      | write =>
          exact ⟨hinv', h.apart, h.released, h.held, h.queue, h.putting, h.handler, h.handled⟩
  | putNull hqueue =>
      cases queueStep_move hqueue with
      | null _ => exact h
  | put hqueue => exact h.put hkeeps hqueue
  | submit hput hqueue => exact h.submit hput hqueue
  | pop hhead hqueue hsys => exact h.pop hhead hqueue hsys
  | @proc inp p sys hproc hsys htail =>
      refine ⟨h.pool, h.apart, h.released, h.held, h.queue, h.putting, fun p' hp' => ?_, h.handled⟩
      rw [(mesAddr_of_sysStep hsys hproc hp').1]
      exact h.handler p hproc
  | @keep inp p sys hproc hsys htail _ =>
      -- `step_pm_process_measurement` returns a static measurement to its owner without freeing it
      obtain ⟨l, hinv, hl⟩ := h.queue
      have hholder := (h.handler p hproc).1
      refine ⟨h.pool, h.apart, h.released, fun m hm => ?_,
        ⟨l, hinv, fun m hm => holder_update (hl m hm) (by simp [hholder]) _⟩,
        fun u m hput => holder_update (h.putting u m hput) (by simp [hholder]) _,
        fun p' hp' => ?_, h.handled⟩
      · exact h.held_update (by simp [hholder]) _ m hm
      · have hnone : sys.proc = none := proc_none_of_tail hsys hproc htail
        rw [Pipeline.kept, hnone] at hp'
        cases hp'
  | @free inp p sys pool hproc hsys htail _ hpool =>
      exact h.free (h.handler p hproc).1 (proc_none_of_tail hsys hproc htail) hpool
  | @done queue hproc hqueue =>
      obtain ⟨l, hinv, hl⟩ := h.queue
      cases queueStep_move hqueue with
      | @done mes _ =>
          exact ⟨h.pool, h.apart, h.released, h.held, ⟨l, hinv.done mes, hl⟩, h.putting,
            fun p hp => by simp [hproc] at hp, fun m hm => by cases hm⟩
  | other hsys =>
      refine ⟨h.pool, h.apart, h.released, h.held, h.queue, h.putting, fun p hp => ?_, h.handled⟩
      exact h.handler p ((proc_of_other hsys).symm.trans hp)

/-- **The run lemma of the pipeline.** -/
theorem run_pipelineInvariant {labels : List (PipelineLabel Ω)} (h : PipelineInvariant B s)
    (hkeeps : Meets (pipelineStep B.toPoolBuild P) (KeepsToInterface B.toPoolBuild) s labels)
    (hrun : run (pipelineStep B.toPoolBuild P) s labels = some s') : PipelineInvariant B s' :=
  run_invariant (fun _ _ _ hI hl hstep => pipelineStep_invariant hI hl hstep) h hkeeps hrun

end Invariant

/-! ### What the flag says -/

/-- **The flag says whose memory it is**: `free_after_use` of a block of the pool is set, that of
a measurement of the application is not, and the dispatch in flight has read it.  It is kept by
orderly steps only: the flag is a byte of memory, and `ItemsKept` is what keeps others from it. -/
structure FlagsKept (B : PoolBuild) (s : Pipeline Ω) : Prop where
  live : ∀ b ∈ s.pool.live, s.pool.mem (b.mes + B.freeAfterUse) ≠ 0
  own : ∀ mes ∈ s.own, s.pool.mem (mes + B.freeAfterUse) = 0
  handler : ∀ p, s.sys.proc = some p → (p.free = true ↔ ∃ b ∈ s.pool.live, b.mes = p.mesAddr)

section Flags

variable {B : ItemBuild} {P : Platform} {s s' : Pipeline Ω} {label : PipelineLabel Ω}

theorem flagsKept_init (P : Platform) (I : Image B.toPoolBuild) :
    FlagsKept B.toPoolBuild (Pipeline.init P I : Pipeline Ω) where
  live b hb := by cases hb
  own := I.unflagged
  handler p hp := by cases hp

/-- The flag lies in the item of its measurement. -/
theorem LiveMes.inItem_flag (B : PoolBuild) (b : LiveMes) :
    b.InItem B (b.mes + B.freeAfterUse) :=
  ⟨Nat.le_add_right _ _, by omega⟩

/-- What leaves the flags of the measurements in use alone keeps them. -/
theorem FlagsKept.of_mem (h : FlagsKept B.toPoolBuild s) {pool : Pool}
    (hlive : pool.live = s.pool.live)
    (hmem : ∀ b ∈ s.blocks, pool.mem (b.mes + B.freeAfterUse) =
      s.pool.mem (b.mes + B.freeAfterUse)) :
    FlagsKept B.toPoolBuild { s with pool := pool } where
  live b hb := by
    have hb' : b ∈ s.pool.live := hlive ▸ hb
    show pool.mem _ ≠ 0
    rw [hmem b (Pipeline.mem_blocks_of_live hb')]
    exact h.live b hb'
  own mes hmes := by
    have hb : ownMes mes ∈ s.blocks := Pipeline.mem_blocks.mpr (Or.inr ⟨mes, hmes, rfl⟩)
    exact (hmem _ hb).trans (h.own mes hmes)
  handler p hp := by
    show _ ↔ ∃ b ∈ pool.live, _
    rw [hlive]
    exact h.handler p hp

/-- **A new measurement has its flag set**, and the others keep theirs. -/
theorem FlagsKept.alloc (h : FlagsKept B.toPoolBuild s) (hinv : PipelineInvariant B s) {t : Tid}
    {sz : BitVec 16} {mes : ℕ} {pool : Pool} (hitems : ItemsKept B s (.alloc t sz (some mes)))
    (houtside : s.OutsideOwn B.toPoolBuild sz mes)
    (hpool : poolStep B.toPoolBuild s.pool (.alloc t sz (some mes)) = some pool) :
    FlagsKept B.toPoolBuild (s.allocated B.toPoolBuild sz mes pool) := by
  cases poolStep_move hpool with
  | alloc _ hout =>
      have hsame : ∀ b ∈ s.blocks, initMes B.toPoolBuild s.pool.mem mes sz
          (b.mes + B.freeAfterUse) = s.pool.mem (b.mes + B.freeAfterUse) := by
        intro b hb
        have hin : b.InBlock B.toPoolBuild (b.mes + B.freeAfterUse) :=
          ⟨Nat.le_add_right _ _, by have := B.freeAfterUse_lt_size; omega⟩
        have hapart := (PipelineInvariant.apart_of_handsOut (c := 0) hout houtside b hb)
        have hstruct : ¬InRange mes (B.size + sz.toNat) (b.mes + B.freeAfterUse) :=
          fun hnew => hapart.not_inBlock hnew hin
        refine initMes_outside ?_ ?_
        · unfold InRange at hstruct
          omega
        · by_contra hpay
          obtain ⟨i, hi⟩ : ∃ i, b.mes + B.freeAfterUse = payloadOf B.toPoolBuild mes sz + i :=
            Nat.exists_eq_add_of_le (by omega)
          exact hitems i (by omega) b hb (hi ▸ b.inItem_flag B.toPoolBuild)
      refine ⟨fun b hb => ?_, fun x hx => ?_, fun p hp => ?_⟩
      · rcases List.mem_cons.mp hb with rfl | hb
        · show initMes _ _ _ _ _ ≠ 0
          rw [initMes_freeAfterUse]
          decide
        · show initMes _ _ _ _ _ ≠ 0
          rw [hsame b (Pipeline.mem_blocks_of_live hb)]
          exact h.live b hb
      · have hb : ownMes x ∈ s.blocks := Pipeline.mem_blocks.mpr (Or.inr ⟨x, hx, rfl⟩)
        exact (hsame _ hb).trans (h.own x hx)
      · -- the measurement in flight is in somebody's hands, the new one was not
        have hne : mes ≠ p.mesAddr := by
          rintro rfl
          have hnobody := hinv.nobody_of_handsOut hout houtside
          rw [(hinv.handler p hp).1] at hnobody
          cases hnobody
        rw [h.handler p hp]
        simp [Pipeline.allocated, hne]

/-- **The step lemma of the flags.** -/
theorem pipelineStep_flagsKept (h : FlagsKept B.toPoolBuild s) (hinv : PipelineInvariant B s)
    (hitems : ItemsKept B s label)
    (hstep : pipelineStep B.toPoolBuild P s label = some s') : FlagsKept B.toPoolBuild s' := by
  cases pipelineStep_move hstep with
  | refuse hpool =>
      cases poolStep_move hpool with
      | fail _ => exact h.of_mem rfl fun _ _ => rfl
  | alloc houtside hpool => exact h.alloc hinv hitems houtside hpool
  | @write mes addr byte pool hpool =>
      cases poolStep_move hpool with
      | write =>
          refine h.of_mem rfl fun b hb => writeByte_of_ne fun heq => ?_
          exact hitems b hb (heq ▸ b.inItem_flag B.toPoolBuild)
  | putNull _ | put _ | submit _ _ | done _ _ => exact ⟨h.live, h.own, h.handler⟩
  | @pop mes queue sys hhead _ hsys =>
      -- `free` is read from the flag here, and the flag is set in the blocks of the pool only
      obtain ⟨-, p, hp, rfl, hfree⟩ := sysStep_poll hsys
      refine ⟨h.live, h.own, fun q hq => ?_⟩
      obtain rfl := Option.some.inj (hp.symm.trans hq)
      have hheld := hinv.head_held hhead
      show _ ↔ ∃ b ∈ s.pool.live, b.mes = p.mesAddr
      rw [hfree, bne_iff_ne, hinv.live_iff_not_own hheld]
      refine ⟨fun hflag hown => hflag (h.own _ hown), fun hown => ?_⟩
      obtain ⟨b, hb, hmes⟩ := (hinv.live_iff_not_own hheld).mpr hown
      exact hmes ▸ h.live b hb
  | @proc inp p sys hproc hsys _ =>
      refine ⟨h.live, h.own, fun q hq => ?_⟩
      obtain ⟨hmes, hfree⟩ := mesAddr_of_sysStep hsys hproc hq
      rw [hmes, hfree]
      exact h.handler p hproc
  | @keep inp p sys hproc hsys htail _ =>
      refine ⟨h.live, h.own, fun q hq => ?_⟩
      have hnone : sys.proc = none := proc_none_of_tail hsys hproc htail
      rw [Pipeline.kept, hnone] at hq
      cases hq
  | @free inp p sys pool hproc hsys htail _ hpool =>
      -- a block that is freed keeps its bytes; the other blocks are live as before
      obtain ⟨hlive, hmem, -⟩ := poolStep_free hpool
      refine ⟨fun c hc => ?_, ?_, fun q hq => ?_⟩
      · have hc' : c ∈ pool.live := hc
        rw [hlive] at hc'
        show pool.mem _ ≠ 0
        rw [hmem]
        exact h.live c (List.mem_of_mem_eraseP hc')
      · show ∀ mes ∈ s.own, pool.mem _ = 0
        rw [hmem]
        exact h.own
      · have hnone : sys.proc = none := proc_none_of_tail hsys hproc htail
        rw [Pipeline.freed, hnone] at hq
        cases hq
  | other hsys =>
      refine ⟨h.live, h.own, fun q hq => ?_⟩
      exact h.handler q ((proc_of_other hsys).symm.trans hq)

end Flags

end StepPipeline
