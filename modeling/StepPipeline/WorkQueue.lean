import StepPipeline.Kernel
import StepPipeline.Library.LabelledRun

/-!
# The work queue of the processor manager

`step_pm_put` embeds a `struct k_work` in every measurement and hands it to a Zephyr work
queue, whose thread calls `step_pm_poll_handler` for one item after the other.  Several
threads may be inside `step_pm_put` at a time, each between its call of `k_work_init` and
that of `k_work_submit_to_queue`.

* `WorkQueue` — the items, the pending list threaded through them, the calls of
  `step_pm_put` in flight and the item that is being handled;
* `stepPmPutInit`, `stepPmPutSubmit` — the two halves of `step_pm_put`; `run_put` puts them
  together;
* `queueStep` — one step of a producer or of the work-queue thread;
* `InitsIdle` — **the condition**: an item is not initialised while it is linked into the
  pending list;
* `put_not_lost` — under this condition what has been accepted is handled, in order;
  `put_again_loses` — without it the list loses the items of other producers.

## What is known of the kernel here

The code of `k_work` is not in the sources, but `step_pm_put` depends on it in a way that can be
pinned down.  `k_work_init` overwrites the whole item: link and flags.  `k_work_submit_to_queue`
leaves an item alone whose QUEUED flag is set, and else appends it and sets the flag.  The thread
of the queue takes the first item, clears QUEUED, sets RUNNING and calls the handler.  These three
are documented behaviour.  A queue may also refuse work, with a negative code; when it does is not
said, so every submission may be refused.

The lists are those of `IntrusiveList`: an item that is initialised while it is linked loses its
link, and with it the rest of the list.  Nothing of this is special to the kernel; any intrusive
list would lose it.

## Producers in between

`step_pm_put` holds no lock, so another producer may come in between its two halves, also for the
same measurement.  That is why a call in flight is part of the state (`putting`).
-/

namespace StepPipeline

open IntrusiveList LabelledRun

/-! ### Work items -/

/-- The flags of a `struct k_work`.  The kernel has more of them, for delayed and cancelled work;
nothing here delays or cancels. -/
structure KWork where
  /-- `K_WORK_QUEUED`. -/
  queued : Bool
  /-- `K_WORK_RUNNING`. -/
  running : Bool
  deriving DecidableEq, Repr

/-- `step_pm_work_q` with its items, each known by the address of the measurement it is
embedded in, and the threads that are at work on them. -/
structure WorkQueue where
  /-- The link field of every item. -/
  snode : Links ℕ
  /-- The flags of every item. -/
  work : ℕ → KWork
  /-- The pending list. -/
  pending : Header ℕ
  /-- The measurement a thread has initialised and not yet submitted. -/
  putting : Tid → Option ℕ
  /-- The item whose handler is being called. -/
  handling : Option ℕ

/-- The queue at start-up, whatever the memory of the measurements holds. -/
def WorkQueue.init (snode : Links ℕ) (work : ℕ → KWork) : WorkQueue :=
  ⟨snode, work, .empty, fun _ => none, none⟩

/-- The answer of a queue that takes no work at the moment, because it has not been started
yet, is drained or is plugged. -/
abbrev Refusal := { rc : ℤ // rc < 0 }

/-- `k_work_init`: the item is overwritten. -/
def kWorkInit (q : WorkQueue) (mes : ℕ) : WorkQueue :=
  { q with
    snode := Function.update q.snode mes none
    work := Function.update q.work mes ⟨false, false⟩ }

/-- `k_work_submit_to_queue`, to a queue that takes work: an item that is queued already is
left where it is. -/
def kWorkSubmitToQueue (P : Platform) (q : WorkQueue) (mes : ℕ) : WorkQueue × ℤ :=
  if (q.work mes).queued then (q, 0)
  else
    let appended := P.slist.append q.snode q.pending mes
    ({ q with
        snode := appended.1
        pending := appended.2
        work := Function.update q.work mes { q.work mes with queued := true } },
      if (q.work mes).running then 2 else 1)

/-! ### `step_pm_put` -/

/-- `step_pm_put` by thread `t`, up to `k_work_init`; with a result if it returns here.  The
initialisation is unconditional: the code does not ask whether the measurement is queued already. -/
def stepPmPutInit (q : WorkQueue) (t : Tid) (mes : Option ℕ) : WorkQueue × Option ℤ :=
  match mes with
  | none => (q, some negEinval)
  | some mes =>
      let q := kWorkInit q mes
      ({ q with putting := Function.update q.putting t (some mes) }, none)

/-- `step_pm_put` by thread `t`, from `k_work_submit_to_queue` on, with its result. -/
def stepPmPutSubmit (P : Platform) (q : WorkQueue) (t : Tid) (mes : ℕ)
    (refusal : Option Refusal) : WorkQueue × ℤ :=
  let (q, rc) :=
    match refusal with
    | none => kWorkSubmitToQueue P q mes
    | some r => (q, r.val)
  -- positive values are not an error
  ({ q with putting := Function.update q.putting t none }, if rc < 0 then rc else 0)

/-- `step_pm_put` by a thread that is not interrupted. -/
def stepPmPut (P : Platform) (q : WorkQueue) (t : Tid) (mes : Option ℕ)
    (refusal : Option Refusal) : WorkQueue × ℤ :=
  match mes, stepPmPutInit q t mes with
  | some mes, (q, none) => stepPmPutSubmit P q t mes refusal
  | _, (q, rc) => (q, rc.getD 0)

/-- What can happen next. -/
inductive QueueLabel where
  /-- Thread `t` calls `step_pm_put(mes)`, up to `k_work_init`. -/
  | put (t : Tid) (mes : Option ℕ)
  /-- Thread `t` submits the item and returns. -/
  | submit (t : Tid) (refusal : Option Refusal)
  /-- The work-queue thread takes the first item off the list and calls its handler. -/
  | pop
  /-- The handler has returned. -/
  | done

/-- **One step of the queue**; `none` if the label is not enabled. -/
def queueStep (P : Platform) (q : WorkQueue) : QueueLabel → Option WorkQueue
  | .put t mes =>
      match q.putting t with
      | none => some (stepPmPutInit q t mes).1
      | some _ => none
  | .submit t refusal =>
      (q.putting t).map fun mes => (stepPmPutSubmit P q t mes refusal).1
  | .pop =>
      match q.handling, q.pending.head with
      | none, some mes =>
          some
            { q with
              pending := q.pending.takeHead q.snode mes
              work := Function.update q.work mes ⟨false, true⟩
              handling := some mes }
      | _, _ => none
  | .done =>
      q.handling.map fun mes =>
        { q with
          work := Function.update q.work mes { q.work mes with running := false }
          handling := none }

/-- A step of the work-queue thread. -/
def QueueLabel.isWorker : QueueLabel → Bool
  | .pop | .done => true
  | .put _ _ | .submit _ _ => false

/-- The measurement for which `step_pm_put` returns 0 in this step.  That includes one found
queued already, for which the producer is told the same. -/
def putAccepted (P : Platform) (q : WorkQueue) : QueueLabel → List ℕ
  | .submit t refusal =>
      match q.putting t with
      | none => []
      | some mes => if (stepPmPutSubmit P q t mes refusal).2 = 0 then [mes] else []
  | _ => []

/-- The measurement that is linked into the pending list in this step. -/
def putEnqueued (q : WorkQueue) : QueueLabel → List ℕ
  | .submit t none =>
      match q.putting t with
      | none => []
      | some mes => if (q.work mes).queued then [] else [mes]
  | _ => []

/-- The measurement for which `step_pm_poll_handler` is called in this step. -/
def handlerCalled (q : WorkQueue) : QueueLabel → List ℕ
  | .pop => q.pending.head.toList
  | _ => []

/-- The item is linked into the pending list. -/
def WorkQueue.Pending (q : WorkQueue) (mes : ℕ) : Prop :=
  ∃ l, Path q.snode q.pending.head l ∧ mes ∈ l

/-- In an empty list nothing is pending. -/
theorem WorkQueue.not_pending {q : WorkQueue} (hhead : q.pending.head = none) (mes : ℕ) :
    ¬q.Pending mes := by
  rintro ⟨l, hpath, hmem⟩
  rw [hhead] at hpath
  cases l with
  | nil => cases hmem
  | cons x l => cases hpath.1

/-! ### What a step can do -/

/-- **What a step of the queue can do**: a call of `step_pm_put` returns for NULL or
initialises the item; it is refused, finds the item queued or appends it; the work-queue
thread calls a handler or comes back from it. -/
inductive QueueMove (P : Platform) (q : WorkQueue) : QueueLabel → WorkQueue → Prop
  | null {t : Tid} (hfree : q.putting t = none) : QueueMove P q (.put t none) q
  | init {t : Tid} {mes : ℕ} (hfree : q.putting t = none) :
      QueueMove P q (.put t (some mes))
        { q with
          snode := Function.update q.snode mes none
          work := Function.update q.work mes ⟨false, false⟩
          putting := Function.update q.putting t (some mes) }
  | refused {t : Tid} {mes : ℕ} (r : Refusal) (hput : q.putting t = some mes) :
      QueueMove P q (.submit t (some r))
        { q with putting := Function.update q.putting t none }
  | again {t : Tid} {mes : ℕ} (hput : q.putting t = some mes)
      (hqueued : (q.work mes).queued = true) :
      QueueMove P q (.submit t none) { q with putting := Function.update q.putting t none }
  | append {t : Tid} {mes : ℕ} (hput : q.putting t = some mes)
      (hidle : (q.work mes).queued = false) :
      QueueMove P q (.submit t none)
        { q with
          snode := (P.slist.append q.snode q.pending mes).1
          pending := (P.slist.append q.snode q.pending mes).2
          work := Function.update q.work mes { q.work mes with queued := true }
          putting := Function.update q.putting t none }
  | pop {mes : ℕ} (hfree : q.handling = none) (hhead : q.pending.head = some mes) :
      QueueMove P q .pop
        { q with
          pending := q.pending.takeHead q.snode mes
          work := Function.update q.work mes ⟨false, true⟩
          handling := some mes }
  | done {mes : ℕ} (hhandling : q.handling = some mes) :
      QueueMove P q .done
        { q with
          work := Function.update q.work mes { q.work mes with running := false }
          handling := none }

section Move

variable {P : Platform} {q q' : WorkQueue} {label : QueueLabel}

theorem queueStep_move (h : queueStep P q label = some q') : QueueMove P q label q' := by
  cases label with
  | put t mes =>
      rw [queueStep] at h
      cases hput : q.putting t with
      | some other => simp [hput] at h
      | none =>
          rw [hput] at h
          obtain rfl := Option.some.inj h
          cases mes with
          | none => exact .null hput
          | some mes => exact .init hput
  | submit t refusal =>
      obtain ⟨mes, hput, rfl⟩ := Option.map_eq_some_iff.mp h
      cases refusal with
      | some r => exact .refused r hput
      | none =>
          rw [stepPmPutSubmit, kWorkSubmitToQueue]
          cases hqueued : (q.work mes).queued with
          | true => exact .again hput hqueued
          | false => exact .append hput hqueued
  | pop =>
      rw [queueStep] at h
      split at h
      · rename_i hfree hhead
        exact Option.some.inj h ▸ .pop hfree hhead
      · cases h
  | done =>
      obtain ⟨mes, hhandling, rfl⟩ := Option.map_eq_some_iff.mp h
      exact .done hhandling

/-- The two steps of a call, one behind the other, are the call. -/
theorem run_put {t : Tid} (hfree : q.putting t = none) (mes : ℕ) (refusal : Option Refusal) :
    run (queueStep P) q [.put t (some mes), .submit t refusal] =
      some (stepPmPut P q t (some mes) refusal).1 := by
  simp [run, queueStep, hfree, stepPmPut, stepPmPutInit]

end Move

/-! ### The invariant of the pending list -/

/-- **The queue holds the items of `l`**, in order.  The flags of an item say so while
`step_pm_put` is at work on it; before its first call they hold anything. -/
structure QueueInvariant (q : WorkQueue) (l : List ℕ) : Prop where
  holds : Holds q.snode q.pending l
  queued : ∀ mes ∈ l, (q.work mes).queued = true
  putting : ∀ t mes, q.putting t = some mes → (q.work mes).queued = true → mes ∈ l

/-- **The condition**: an item is not initialised while it is linked into the pending list.  It
may be initialised while its handler is running. -/
def InitsIdle (q : WorkQueue) : QueueLabel → Prop
  | .put _ (some mes) => ¬q.Pending mes
  | _ => True

section Invariant

variable {P : Platform} {q q' : WorkQueue} {label : QueueLabel} {l : List ℕ}

theorem queueInvariant_init (snode : Links ℕ) (work : ℕ → KWork) :
    QueueInvariant (.init snode work) [] :=
  ⟨holds_empty _, fun _ h => absurd h List.not_mem_nil, fun _ _ h => by cases h⟩

theorem QueueInvariant.pending_iff (h : QueueInvariant q l) (mes : ℕ) :
    q.Pending mes ↔ mes ∈ l := by
  constructor
  · rintro ⟨l', hpath, hmem⟩
    rwa [h.holds.path.unique hpath]
  · exact fun hmem => ⟨l, h.holds.path, hmem⟩

/-- A thread that leaves `step_pm_put` leaves the list as it is. -/
theorem QueueInvariant.returns (h : QueueInvariant q l) (t : Tid) :
    QueueInvariant { q with putting := Function.update q.putting t none } l := by
  refine ⟨h.holds, h.queued,
    fun u mes (hput : Function.update q.putting t none u = some mes) hqueued => ?_⟩
  by_cases hu : u = t
  · rw [hu, Function.update_self] at hput
    cases hput
  · rw [Function.update_of_ne hu] at hput
    exact h.putting u mes hput hqueued

/-- Initialising an item that is not pending. -/
theorem QueueInvariant.put (h : QueueInvariant q l) {mes : ℕ} (hidle : mes ∉ l) (t : Tid) :
    QueueInvariant
      { q with
        snode := Function.update q.snode mes none
        work := Function.update q.work mes ⟨false, false⟩
        putting := Function.update q.putting t (some mes) } l := by
  have hne : ∀ x ∈ l, x ≠ mes := fun x hx heq => hidle (heq ▸ hx)
  refine ⟨h.holds.congr fun x hx => Function.update_of_ne (hne x hx) _ _, fun x hx => ?_,
    fun u x (hput : Function.update q.putting t (some mes) u = some x)
      (hqueued : (Function.update q.work mes ⟨false, false⟩ x).queued = true) => ?_⟩
  · show (Function.update q.work mes ⟨false, false⟩ x).queued = true
    rw [Function.update_of_ne (hne x hx)]
    exact h.queued x hx
  · -- the flag says the item is queued, so it is another one, and of another thread
    have hxm : x ≠ mes := by
      rintro rfl
      rw [Function.update_self] at hqueued
      cases hqueued
    have hu : u ≠ t := by
      rintro rfl
      rw [Function.update_self] at hput
      exact hxm (Option.some.inj hput).symm
    rw [Function.update_of_ne hxm] at hqueued
    rw [Function.update_of_ne hu] at hput
    exact h.putting u x hput hqueued

/-- Appending an item that is not pending. -/
theorem QueueInvariant.append (h : QueueInvariant q l) {mes : ℕ}
    (hidle : (q.work mes).queued = false) :
    QueueInvariant
      { q with
        snode := (P.slist.append q.snode q.pending mes).1
        pending := (P.slist.append q.snode q.pending mes).2
        work := Function.update q.work mes { q.work mes with queued := true } }
      (l ++ [mes]) := by
  have hnew : mes ∉ l := fun hmem => by simp [h.queued mes hmem] at hidle
  refine ⟨(P.slist.append_places h.holds hnew).holds, fun x hx => ?_, fun u x hput
    (hqueued : (Function.update q.work mes { q.work mes with queued := true } x).queued =
      true) => ?_⟩
  · show (Function.update q.work mes { q.work mes with queued := true } x).queued = true
    by_cases hxm : x = mes
    · rw [hxm, Function.update_self]
    · rw [Function.update_of_ne hxm]
      exact h.queued x ((List.mem_append.mp hx).resolve_right (by simpa using hxm))
  · by_cases hxm : x = mes
    · exact List.mem_append_right l (List.mem_singleton.mpr hxm)
    · rw [Function.update_of_ne hxm] at hqueued
      exact List.mem_append_left _ (h.putting u x hput hqueued)

/-- Taking the first item off. -/
theorem QueueInvariant.pop {mes : ℕ} (h : QueueInvariant q (mes :: l)) :
    QueueInvariant
      { q with
        pending := q.pending.takeHead q.snode mes
        work := Function.update q.work mes ⟨false, true⟩
        handling := some mes } l := by
  have hout : mes ∉ l := (List.nodup_cons.mp h.holds.nodup).1
  refine ⟨h.holds.takeHead, fun x hx => ?_, fun u x hput
    (hqueued : (Function.update q.work mes ⟨false, true⟩ x).queued = true) => ?_⟩
  · show (Function.update q.work mes ⟨false, true⟩ x).queued = true
    have hne : x ≠ mes := fun heq => hout (heq ▸ hx)
    rw [Function.update_of_ne hne]
    exact h.queued x (List.mem_cons_of_mem mes hx)
  · have hxm : x ≠ mes := by
      rintro rfl
      rw [Function.update_self] at hqueued
      cases hqueued
    rw [Function.update_of_ne hxm] at hqueued
    exact (List.mem_cons.mp (h.putting u x hput hqueued)).resolve_left hxm

/-- Clearing the RUNNING flag. -/
theorem QueueInvariant.done (h : QueueInvariant q l) (mes : ℕ) :
    QueueInvariant
      { q with
        work := Function.update q.work mes { q.work mes with running := false }
        handling := none } l := by
  have hqueued : ∀ x, (Function.update q.work mes
      { q.work mes with running := false } x).queued = (q.work x).queued := by
    intro x
    by_cases hx : x = mes
    · rw [hx, Function.update_self]
    · rw [Function.update_of_ne hx]
  exact ⟨h.holds, fun x hx => (hqueued x).trans (h.queued x hx),
    fun u x hput hq => h.putting u x hput ((hqueued x).symm.trans hq)⟩

/-- `step_pm_put` can only return 0 for the measurement it has initialised. -/
theorem mem_putAccepted {t : Tid} {mes x : ℕ} {refusal : Option Refusal}
    (hput : q.putting t = some mes) (hx : x ∈ putAccepted P q (.submit t refusal)) :
    x = mes := by
  simp only [putAccepted, hput] at hx
  split at hx
  · exact List.mem_singleton.mp hx
  · cases hx

/-- **The step lemma of the queue**: first in, first out, and what has been accepted is pending.
The equation says that what was pending and is appended now is what is handled now and is pending
afterwards; over a run it becomes the order of service. -/
theorem queueStep_invariant (h : QueueInvariant q l) (hlabel : InitsIdle q label)
    (hstep : queueStep P q label = some q') :
    ∃ l', QueueInvariant q' l' ∧ l ++ putEnqueued q label = handlerCalled q label ++ l' ∧
      ∀ mes ∈ putAccepted P q label, mes ∈ l' := by
  cases queueStep_move hstep with
  | null _ => exact ⟨l, h, List.append_nil l, by simp [putAccepted]⟩
  | @init t mes _ =>
      have hidle : mes ∉ l := fun hmem => hlabel ((h.pending_iff mes).mpr hmem)
      exact ⟨l, h.put hidle t, List.append_nil l, by simp [putAccepted]⟩
  | @refused t mes r hput =>
      refine ⟨l, h.returns t, List.append_nil l, ?_⟩
      have hne : (stepPmPutSubmit P q t mes (some r)).2 ≠ 0 := by
        show (if r.val < 0 then r.val else 0) ≠ 0
        rw [if_pos r.property]
        exact r.property.ne
      simp [putAccepted, hput, hne]
  | @again t mes hput hqueued =>
      refine ⟨l, h.returns t, by simp [putEnqueued, hput, hqueued, handlerCalled], ?_⟩
      intro x hx
      rw [mem_putAccepted hput hx]
      exact h.putting t mes hput hqueued
  | @append t mes hput hidle =>
      have happ := @QueueInvariant.append P q l h mes hidle
      refine ⟨l ++ [mes], happ.returns t, by simp [putEnqueued, hput, hidle, handlerCalled], ?_⟩
      intro x hx
      rw [mem_putAccepted hput hx]
      exact List.mem_append_right l (List.mem_singleton.mpr rfl)
  | @pop mes hfree hhead =>
      rw [h.holds.head_eq] at hhead
      obtain ⟨rest, rfl⟩ := List.head?_eq_some_iff.mp hhead
      refine ⟨rest, h.pop, ?_, by simp [putAccepted]⟩
      simp [putEnqueued, handlerCalled, h.holds.head_eq]
  | @done mes _ => exact ⟨l, h.done mes, List.append_nil l, by simp [putAccepted]⟩

/-- **The run lemma of the queue**: what was pending and has been appended since is what
has been handled since and is pending. -/
theorem run_queueInvariant {labels : List QueueLabel} (h : QueueInvariant q l)
    (hlabels : Meets (queueStep P) InitsIdle q labels)
    (hrun : run (queueStep P) q labels = some q') :
    ∃ l', QueueInvariant q' l' ∧
      l ++ trace (queueStep P) putEnqueued q labels =
        trace (queueStep P) handlerCalled q labels ++ l' := by
  induction labels generalizing q l with
  | nil =>
      obtain rfl := Option.some.inj hrun
      exact ⟨l, h, List.append_nil l⟩
  | cons label labels ih =>
      obtain ⟨q₁, hstep, hrun'⟩ := (run_cons_eq_some _).mp hrun
      obtain ⟨l₁, h₁, hone, -⟩ := queueStep_invariant h hlabels.1 hstep
      obtain ⟨l', h', hrest⟩ := ih h₁ (hlabels.2 q₁ hstep) hrun'
      refine ⟨l', h', ?_⟩
      rw [trace_cons hstep, trace_cons hstep, ← List.append_assoc, hone, List.append_assoc,
        hrest, List.append_assoc]

/-- A work-queue thread that is not handling an item handles what is pending. -/
theorem exists_drain_of_free (h : QueueInvariant q l) (hfree : q.handling = none) :
    ∃ labels q', (∀ label ∈ labels, label.isWorker = true) ∧
      run (queueStep P) q labels = some q' ∧
      trace (queueStep P) handlerCalled q labels = l := by
  induction l generalizing q with
  | nil => exact ⟨[], q, by simp, rfl, rfl⟩
  | cons mes l ih =>
      have hhead : q.pending.head = some mes := h.holds.head_eq
      have hpop : queueStep P q .pop =
          some
            { q with
              pending := q.pending.takeHead q.snode mes
              work := Function.update q.work mes ⟨false, true⟩
              handling := some mes } := by
        rw [queueStep, hfree, hhead]
      obtain ⟨labels, q', hworker, hrun, htrace⟩ := ih (h.pop.done mes) rfl
      refine ⟨.pop :: .done :: labels, q', ?_, ?_, ?_⟩
      · simpa [QueueLabel.isWorker] using hworker
      · rw [run_cons, hpop]
        exact hrun
      · rw [trace_cons hpop, handlerCalled, hhead]
        exact congrArg (mes :: ·) htrace

/-- **The work-queue thread by itself** handles everything that is pending. -/
theorem exists_drain (h : QueueInvariant q l) :
    ∃ labels q', (∀ label ∈ labels, label.isWorker = true) ∧
      run (queueStep P) q labels = some q' ∧
      trace (queueStep P) handlerCalled q labels = l := by
  cases hhandling : q.handling with
  | none => exact exists_drain_of_free h hhandling
  | some mes =>
      have hdone : queueStep P q .done =
          some
            { q with
              work := Function.update q.work mes { q.work mes with running := false }
              handling := none } := by
        rw [queueStep, hhandling]
        rfl
      obtain ⟨labels, q', hworker, hrun, htrace⟩ := exists_drain_of_free (h.done mes) rfl
      refine ⟨.done :: labels, q', ?_, ?_, ?_⟩
      · simpa [QueueLabel.isWorker] using hworker
      · rw [run_cons, hdone]
        exact hrun
      · rw [trace_cons hdone]
        exact htrace

end Invariant

/-! ### No measurement is lost -/

/-- **No measurement is lost** in a run from `q₀` to `q`. -/
structure NothingLost (P : Platform) (q₀ : WorkQueue) (labels : List QueueLabel)
    (q : WorkQueue) : Prop where
  /-- A measurement that has been accepted has been handled since or is pending. -/
  kept : ∀ pre label post q₁ q₂ mes, labels = pre ++ label :: post →
    run (queueStep P) q₀ pre = some q₁ → queueStep P q₁ label = some q₂ →
    mes ∈ putAccepted P q₁ label →
    mes ∈ trace (queueStep P) handlerCalled q₂ post ∨ q.Pending mes
  /-- Measurements are handled in the order in which they have been put. -/
  ordered : ∃ waiting, Path q.snode q.pending.head waiting ∧
    trace (queueStep P) putEnqueued q₀ labels =
      trace (queueStep P) handlerCalled q₀ labels ++ waiting
  /-- The work-queue thread by itself handles what is pending. -/
  drains : ∃ rest q', (∀ label ∈ rest, label.isWorker = true) ∧
    run (queueStep P) q rest = some q' ∧
    ∀ mes, q.Pending mes → mes ∈ trace (queueStep P) handlerCalled q rest
  /-- So it does with other producers in between, after as many calls of the handler. -/
  served : ∃ n, ∀ more q', Meets (queueStep P) InitsIdle q more →
    run (queueStep P) q more = some q' →
    n ≤ (trace (queueStep P) handlerCalled q more).length →
    ∀ mes, q.Pending mes → mes ∈ trace (queueStep P) handlerCalled q more

section Lost

variable {P : Platform} {q : WorkQueue} {labels : List QueueLabel}

/-- **No measurement is lost** in any interleaving of puts and queue steps in which no item
is initialised while it is pending. -/
theorem put_not_lost (snode : Links ℕ) (work : ℕ → KWork)
    (hlabels : Meets (queueStep P) InitsIdle (.init snode work) labels)
    (hrun : run (queueStep P) (.init snode work) labels = some q) :
    NothingLost P (.init snode work) labels q := by
  have hinit := queueInvariant_init snode work
  obtain ⟨l, hinv, horder⟩ := run_queueInvariant hinit hlabels hrun
  refine ⟨?_, ⟨l, hinv.holds.path, horder⟩, ?_, ⟨l.length, ?_⟩⟩
  · intro pre label post q₁ q₂ mes hsplit hpre hstep hmes
    subst hsplit
    obtain ⟨u, hu, hpost⟩ := (run_append_eq_some _).mp hrun
    obtain rfl := Option.some.inj (hpre.symm.trans hu)
    obtain ⟨v, hv, hpost⟩ := (run_cons_eq_some _).mp hpost
    obtain rfl := Option.some.inj (hstep.symm.trans hv)
    have hrest := hlabels.after hpre
    obtain ⟨l₁, h₁, -⟩ := run_queueInvariant hinit hlabels.before hpre
    obtain ⟨l₂, h₂, -, hmem⟩ := queueStep_invariant h₁ hrest.1 hstep
    obtain ⟨l', h', hrun'⟩ := run_queueInvariant h₂ (hrest.2 q₂ hstep) hpost
    have hmes' : mes ∈ trace (queueStep P) handlerCalled q₂ post ++ l' :=
      hrun' ▸ List.mem_append_left _ (hmem mes hmes)
    exact (List.mem_append.mp hmes').imp_right (h'.pending_iff mes).mpr
  · obtain ⟨rest, q', hworker, hrest, htrace⟩ := exists_drain hinv
    exact ⟨rest, q', hworker, hrest, fun mes hmes => htrace ▸ (hinv.pending_iff mes).mp hmes⟩
  · intro more q' hmore hrun' hcalls mes hmes
    obtain ⟨l', -, horder'⟩ := run_queueInvariant hinv hmore hrun'
    -- the handler has been called for at least as many items as were pending
    have hprefix : l <+: trace (queueStep P) handlerCalled q more :=
      List.prefix_of_prefix_length_le ⟨_, horder'⟩ (List.prefix_append _ l') hcalls
    exact hprefix.subset ((hinv.pending_iff mes).mp hmes)

/-- A queue that has just been started, over cleared memory. -/
def WorkQueue.cleared : WorkQueue := .init (fun _ => none) fun _ => ⟨false, false⟩

/-- A measurement is put, handled, and put again while its handler is running. -/
theorem put_not_lost_running :
    ∃ q, run (queueStep Platform.tests) .cleared
        [.put 1 (some 10), .submit 1 none, .pop, .put 1 (some 10), .submit 1 none] = some q ∧
      NothingLost Platform.tests .cleared
        [.put 1 (some 10), .submit 1 none, .pop, .put 1 (some 10), .submit 1 none] q := by
  refine ⟨_, rfl, put_not_lost _ _ ?_ rfl⟩
  refine ⟨WorkQueue.not_pending rfl 10, fun q₁ h₁ => ⟨trivial, fun q₂ h₂ => ⟨trivial,
    fun q₃ h₃ => ⟨?_, fun _ _ => ⟨trivial, fun _ _ => trivial⟩⟩⟩⟩⟩
  -- the second time the list is empty, too
  obtain rfl := Option.some.inj h₁
  obtain rfl := Option.some.inj h₂
  obtain rfl := Option.some.inj h₃
  exact WorkQueue.not_pending rfl 10

/-- Measurement 10 is put, measurement 20 is put, and 10 is put once more while it is
pending; then the work-queue thread handles what it finds. -/
def putAgain : List QueueLabel :=
  [.put 1 (some 10), .submit 1 none, .put 1 (some 20), .submit 1 none, .put 1 (some 10),
    .submit 1 none, .pop, .done]

/-- **A put that loses another measurement**: all three calls return 0, the list has run
empty, and measurement 20 has not been handled. -/
theorem put_again_loses :
    ∃ q, run (queueStep Platform.tests) .cleared putAgain = some q ∧
      q.pending.head = none ∧ q.handling = none ∧
      trace (queueStep Platform.tests) (putAccepted Platform.tests) .cleared putAgain =
        [10, 20, 10] ∧
      trace (queueStep Platform.tests) handlerCalled .cleared putAgain = [10] ∧
      ¬NothingLost Platform.tests .cleared putAgain q := by
  obtain ⟨q₁, q₂, q, hpre, hstep, hmes, hpost, hrun, hhead, hfree⟩ : ∃ q₁ q₂ q,
      run (queueStep Platform.tests) .cleared (putAgain.take 3) = some q₁ ∧
      queueStep Platform.tests q₁ (.submit 1 none) = some q₂ ∧
      20 ∈ putAccepted Platform.tests q₁ (.submit 1 none) ∧
      20 ∉ trace (queueStep Platform.tests) handlerCalled q₂ (putAgain.drop 4) ∧
      run (queueStep Platform.tests) .cleared putAgain = some q ∧
      q.pending.head = none ∧ q.handling = none :=
    ⟨_, _, _, rfl, rfl, by decide, by decide, rfl, rfl, rfl⟩
  refine ⟨q, hrun, hhead, hfree, by decide, by decide, fun hlost => ?_⟩
  rcases hlost.kept _ _ _ q₁ q₂ 20 rfl hpre hstep hmes with hhandled | hpending
  · exact hpost hhandled
  · exact WorkQueue.not_pending hhead 20 hpending

end Lost

end StepPipeline
