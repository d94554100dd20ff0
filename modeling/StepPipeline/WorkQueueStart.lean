import StepPipeline.WorkQueue

/-!
# The start of the work queue

Nothing starts the work queue at boot: every function of the processor manager first calls
`step_pm_initialize_workqueue`, which tests a flag, sets it, and initialises and starts the
queue, under no lock.  The flag is set *before* the queue is there.

* `Place`, `stepPmInitializeWorkqueue` — the function, step by step, as a thread goes through
  it;
* `StartUp`, `startStep` — any number of threads in it, in front of the queue of
  `StepPipeline.WorkQueue`;
* `TestsAlone` — **the condition**: nobody tests the flag while another thread, having found
  it clear, has not started the queue yet;
* `serial_start` — under this condition the queue is started once, refuses nobody, and does
  what a queue does that has been running from the start;
* `racing_start` — without it, **a measurement is refused, and the queue may be started
  twice**: while a thread is starting the queue, any other thread that comes in can have its
  `step_pm_put` refused with -ENODEV, and as long as the flag is clear it can come to call
  `k_work_queue_start` as well.

## What is assumed of Zephyr

Of a queue that has been initialised and started once: it takes work from the start on, and
`k_work_submit_to_queue` answers -ENODEV before.  That is documented.  What becomes of a queue
on which `k_work_queue_init` or `k_work_queue_start` is called a second time is not, and two
threads that race do just that.  The model has to say something there, since it is a function;
but every result stops at the call.  `serial_start` is about runs in which there is no second
call, and `racing_start` about runs in which nobody has made the first one: its second half
ends with the second call.
-/

namespace StepPipeline

open IntrusiveList LabelledRun

/-! ### `step_pm_initialize_workqueue` -/

/-- How far a thread has come in a function of the processor manager.  All of them begin with
`step_pm_initialize_workqueue`, whose points are told apart; how far a thread has come in
`step_pm_put` the queue knows. -/
inductive Place where
  /-- It is about to test `step_pm_wqueue_started`. -/
  | test
  /-- It has found the flag clear, and is about to set it. -/
  | set
  /-- It is about to call `k_work_queue_init`. -/
  | init
  /-- It is about to call `k_work_queue_start`. -/
  | start
  /-- It is behind `step_pm_initialize_workqueue`. -/
  | through
  deriving DecidableEq, Repr

/-- The work queue with what is needed to start it. -/
structure StartUp where
  /-- `step_pm_wqueue_started`. -/
  wqueueStarted : Bool
  /-- `step_pm_work_q`, with its items. -/
  workQ : WorkQueue
  /-- `K_WORK_QUEUE_STARTED`: the queue takes work, and its thread is there. -/
  taking : Bool
  /-- The threads inside a function of the processor manager. -/
  place : Tid → Option Place

/-- At boot, whatever the memory of the measurements holds. -/
def StartUp.boot (snode : Links ℕ) (work : ℕ → KWork) : StartUp :=
  ⟨false, .init snode work, false, fun _ => none⟩

/-- `k_work_queue_init`: the structure is overwritten, its flags with it.  What becomes of a
queue that is in use is not said by Zephyr; no result here depends on it. -/
def kWorkQueueInit (s : StartUp) : StartUp :=
  { s with workQ := { s.workQ with pending := .empty }, taking := false }

/-- `k_work_queue_start`, which empties the pending list before it lets work in.  It is to be
called once: what a second call does is not said by Zephyr either, and nothing is concluded
from it. -/
def kWorkQueueStart (s : StartUp) : StartUp :=
  { s with workQ := { s.workQ with pending := .empty }, taking := true }

/-- **One step of `step_pm_initialize_workqueue`** for a thread that has come so far, with
where it is then. -/
def stepPmInitializeWorkqueue (s : StartUp) : Place → StartUp × Place
  | .test => (s, if s.wqueueStarted then .through else .set)
  | .set => ({ s with wqueueStarted := true }, .init)
  | .init => (kWorkQueueInit s, .start)
  | .start => (kWorkQueueStart s, .through)
  | .through => (s, .through)

/-! ### Threads and queue -/

/-- `-ENODEV`, the answer of `k_work_submit_to_queue` for a queue that has not been
started. -/
def negEnodev : Refusal := ⟨-19, by decide⟩

/-- The answer a submission gets: this program never drains or plugs its queue. -/
def StartUp.refusal (s : StartUp) : Option Refusal := if s.taking then none else some negEnodev

/-- Thread `t` is then at `place`. -/
def StartUp.moved (s : StartUp) (t : Tid) (place : Option Place) : StartUp :=
  { s with place := Function.update s.place t place }

/-- What can happen next. -/
inductive StartLabel where
  /-- Thread `t` calls a function of the processor manager. -/
  | call (t : Tid)
  /-- Thread `t` takes a step of `step_pm_initialize_workqueue`. -/
  | initWorkqueue (t : Tid)
  /-- Thread `t` goes on with `step_pm_put(mes)`, up to `k_work_init`; for NULL it has
  returned before it looks at the queue. -/
  | put (t : Tid) (mes : Option ℕ)
  /-- Thread `t` submits the item, and returns. -/
  | submit (t : Tid)
  /-- Thread `t` returns from another function of the processor manager. -/
  | leave (t : Tid)
  /-- The work-queue thread calls the next handler. -/
  | pop
  /-- The handler has returned. -/
  | done

/-- What a step is for the queue behind it. -/
def queueLabels (s : StartUp) : StartLabel → List QueueLabel
  | .put t mes => [.put t mes]
  | .submit t => [.submit t s.refusal]
  | .pop => [.pop]
  | .done => [.done]
  | .call _ | .initWorkqueue _ | .leave _ => []

/-- **One step**; `none` if the label is not enabled. -/
def startStep (P : Platform) (s : StartUp) : StartLabel → Option StartUp
  | .call t =>
      match s.place t with
      | none => some (s.moved t (some .test))
      | some _ => none
  | .initWorkqueue t =>
      match s.place t with
      | none | some .through => none
      | some place =>
          let (s', place') := stepPmInitializeWorkqueue s place
          some (s'.moved t (some place'))
  | .put t mes =>
      if s.place t = mes.map (fun _ => .through) then
        (queueStep P s.workQ (.put t mes)).map fun q => { s with workQ := q }
      else none
  | .submit t =>
      if s.place t = some .through then
        (queueStep P s.workQ (.submit t s.refusal)).map fun q =>
          { s with workQ := q }.moved t none
      else none
  | .leave t =>
      if s.place t = some .through ∧ s.workQ.putting t = none then some (s.moved t none)
      else none
  | .pop =>
      if s.taking then (queueStep P s.workQ .pop).map fun q => { s with workQ := q } else none
  | .done => (queueStep P s.workQ .done).map fun q => { s with workQ := q }

/-- Thread `t` has found the flag clear, and has not started the queue yet. -/
def StartUp.Starting (s : StartUp) (t : Tid) : Prop :=
  s.place t = some .set ∨ s.place t = some .init ∨ s.place t = some .start

instance (s : StartUp) (t : Tid) : Decidable (s.Starting t) :=
  inferInstanceAs (Decidable (_ ∨ _ ∨ _))

/-- **Nobody tests the flag while another thread is starting the queue.** It is a condition on the
schedule, met for instance by an application whose first call is made before its other threads
exist. -/
def TestsAlone (s : StartUp) : StartLabel → Prop
  | .initWorkqueue t => s.place t = some .test → ∀ u, ¬s.Starting u
  | _ => True

/-- The thread that calls `k_work_queue_start` in this step. -/
def queueStarts (s : StartUp) : StartLabel → List Tid
  | .initWorkqueue t => if s.place t = some .start then [t] else []
  | _ => []

/-- The measurement for which `step_pm_put` returns `-ENODEV` in this step. -/
def putRefused (s : StartUp) : StartLabel → List ℕ
  | .submit t => if s.taking then [] else (s.workQ.putting t).toList
  | _ => []

/-! ### What a step can do -/

/-- **What a step can do**: a thread comes in, goes on with the start of the queue, goes on
with `step_pm_put`, or returns; the work-queue thread moves once the queue is there. -/
inductive StartMove (P : Platform) (s : StartUp) : StartLabel → StartUp → Prop
  | call {t : Tid} (hout : s.place t = none) : StartMove P s (.call t) (s.moved t (some .test))
  | initWorkqueue {t : Tid} {place : Place} (hplace : s.place t = some place)
      (hne : place ≠ .through) :
      StartMove P s (.initWorkqueue t)
        ((stepPmInitializeWorkqueue s place).1.moved t
          (some (stepPmInitializeWorkqueue s place).2))
  | put {t : Tid} {mes : Option ℕ} {q : WorkQueue}
      (hplace : s.place t = mes.map fun _ => .through)
      (hstep : queueStep P s.workQ (.put t mes) = some q) :
      StartMove P s (.put t mes) { s with workQ := q }
  | submit {t : Tid} {q : WorkQueue} (hplace : s.place t = some .through)
      (hstep : queueStep P s.workQ (.submit t s.refusal) = some q) :
      StartMove P s (.submit t) ({ s with workQ := q }.moved t none)
  | leave {t : Tid} (hplace : s.place t = some .through) (hput : s.workQ.putting t = none) :
      StartMove P s (.leave t) (s.moved t none)
  | pop {q : WorkQueue} (htaking : s.taking = true) (hstep : queueStep P s.workQ .pop = some q) :
      StartMove P s .pop { s with workQ := q }
  | done {q : WorkQueue} (hstep : queueStep P s.workQ .done = some q) :
      StartMove P s .done { s with workQ := q }

section Move

variable {P : Platform} {s s' : StartUp} {label : StartLabel} {t u : Tid}

theorem startStep_move (h : startStep P s label = some s') : StartMove P s label s' := by
  cases label with
  | call t =>
      rw [startStep] at h
      split at h
      · rename_i hout
        exact Option.some.inj h ▸ .call hout
      · cases h
  | initWorkqueue t =>
      rw [startStep] at h
      split at h
      · cases h
      · cases h
      · rename_i place hne hplace
        exact Option.some.inj h ▸ .initWorkqueue hplace hne
  | put t mes =>
      rw [startStep] at h
      split at h
      · rename_i hplace
        obtain ⟨q, hstep, rfl⟩ := Option.map_eq_some_iff.mp h
        exact .put hplace hstep
      · cases h
  | submit t =>
      rw [startStep] at h
      split at h
      · rename_i hplace
        obtain ⟨q, hstep, rfl⟩ := Option.map_eq_some_iff.mp h
        exact .submit hplace hstep
      · cases h
  | leave t =>
      rw [startStep] at h
      split at h
      · rename_i hplace
        exact Option.some.inj h ▸ .leave hplace.1 hplace.2
      · cases h
  | pop =>
      rw [startStep] at h
      split at h
      · rename_i htaking
        obtain ⟨q, hstep, rfl⟩ := Option.map_eq_some_iff.mp h
        exact .pop htaking hstep
      · cases h
  | done =>
      obtain ⟨q, hstep, rfl⟩ := Option.map_eq_some_iff.mp h
      exact .done hstep

@[simp] theorem moved_place_self (s : StartUp) (t : Tid) (place : Option Place) :
    (s.moved t place).place t = place := Function.update_self ..

theorem moved_place_of_ne (place : Option Place) (hne : u ≠ t) :
    (s.moved t place).place u = s.place u := Function.update_of_ne hne ..

/-- `step_pm_initialize_workqueue` moves no other thread. -/
@[simp] theorem stepPmInitializeWorkqueue_place (s : StartUp) (place : Place) :
    (stepPmInitializeWorkqueue s place).1.place = s.place := by
  cases place <;> rfl

end Move

/-! ### One thread after the other -/

/-- The thread has not gone beyond the test of the flag. -/
def StartUp.Outside (s : StartUp) (t : Tid) : Prop :=
  s.place t = none ∨ s.place t = some .test

/-- **How far the start of the queue has come**, and who has called `k_work_queue_start`: no
thread has found the flag clear yet, one of them is starting the queue and all others are
still in front of the test, or the queue is there. -/
inductive StartPhase (s : StartUp) : List Tid → Prop
  | before (hflag : s.wqueueStarted = false) (htaking : s.taking = false)
      (hempty : s.workQ.pending = .empty) (hout : ∀ t, s.Outside t) : StartPhase s []
  | during (u : Tid) (hu : s.Starting u) (hflag : s.place u ≠ some .set → s.wqueueStarted = true)
      (htaking : s.taking = false) (hempty : s.workQ.pending = .empty)
      (hout : ∀ t, t ≠ u → s.Outside t) : StartPhase s []
  | after (u : Tid) (hflag : s.wqueueStarted = true) (htaking : s.taking = true)
      (hdone : ∀ t, ¬s.Starting t) : StartPhase s [u]

section Serial

variable {P : Platform} {s s' : StartUp} {label : StartLabel} {labels : List StartLabel}
  {seen : List Tid} {t : Tid} {place : Option Place}

theorem StartUp.Outside.not_through (h : s.Outside t) : s.place t ≠ some .through := by
  rcases h with h | h <;> simp [h]

theorem StartUp.Outside.not_starting (h : s.Outside t) : ¬s.Starting t := by
  rcases h with h | h <;> simp [StartUp.Starting, h]

theorem StartUp.Starting.not_through (h : s.Starting t) : s.place t ≠ some .through := by
  rcases h with h | h | h <;> simp [h]

theorem startPhase_boot (snode : Links ℕ) (work : ℕ → KWork) : StartPhase (.boot snode work) [] :=
  .before rfl rfl rfl fun _ => .inl rfl

/-- Before the queue has been started nobody is behind `step_pm_initialize_workqueue`. -/
theorem StartPhase.taking (h : StartPhase s seen) (hplace : s.place t = some .through) :
    s.taking = true := by
  cases h with
  | before _ _ _ hout => exact absurd hplace (hout t).not_through
  | during u hu _ _ _ hout =>
      by_cases htu : t = u
      · exact absurd (htu ▸ hplace) hu.not_through
      · exact absurd hplace (hout t htu).not_through
  | after _ _ htaking _ => exact htaking

theorem StartPhase.length_le (h : StartPhase s seen) : seen.length ≤ 1 := by
  cases h <;> simp

/-- A thread that comes in, or returns, changes no phase. -/
theorem StartPhase.moved (h : StartPhase s seen) (hplace : ¬s.Starting t)
    (hplace' : place = none ∨ place = some .test) : StartPhase (s.moved t place) seen := by
  have hself : (s.moved t place).Outside t := by simpa [StartUp.Outside] using hplace'
  have hother : ∀ u, u ≠ t → (s.moved t place).place u = s.place u :=
    fun u hu => moved_place_of_ne place hu
  cases h with
  | before hflag htaking hempty hout =>
      refine .before hflag htaking hempty fun u => ?_
      by_cases hu : u = t
      · exact hu ▸ hself
      · rw [StartUp.Outside, hother u hu]
        exact hout u
  | during u hu hflag htaking hempty hout =>
      have hut : u ≠ t := fun heq => hplace (heq ▸ hu)
      refine .during u ?_ ?_ htaking hempty fun v hv => ?_
      · rwa [StartUp.Starting, hother u hut]
      · rwa [hother u hut]
      · by_cases hvt : v = t
        · exact hvt ▸ hself
        · rw [StartUp.Outside, hother v hvt]
          exact hout v hv
  | after u hflag htaking hdone =>
      refine .after u hflag htaking fun v => ?_
      by_cases hvt : v = t
      · exact hvt ▸ hself.not_starting
      · rw [StartUp.Starting, hother v hvt]
        exact hdone v

/-- Nor does the queue, once it is there. -/
theorem StartPhase.queue (h : StartPhase s seen) {q : WorkQueue}
    (hq : s.taking = false → q.pending = s.workQ.pending) :
    StartPhase { s with workQ := q } seen := by
  cases h with
  | before hflag htaking hempty hout =>
      exact .before hflag htaking ((hq htaking).trans hempty) hout
  | during u hu hflag htaking hempty hout =>
      exact .during u hu hflag htaking ((hq htaking).trans hempty) hout
  | after u hflag htaking hdone => exact .after u hflag htaking hdone

/-- Emptying an empty list. -/
theorem WorkQueue.emptied {q : WorkQueue} (hempty : q.pending = .empty) :
    { q with pending := .empty } = q := by
  rw [← hempty]

/-- A thread that is starting the queue while the others stay in front of the test is the
one that is starting it. -/
theorem StartPhase.starter (h : StartPhase s seen) (ht : s.Starting t) :
    seen = [] ∧ s.workQ.pending = .empty ∧ s.taking = false ∧
      (s.place t ≠ some .set → s.wqueueStarted = true) ∧ ∀ u, u ≠ t → s.Outside u := by
  cases h with
  | before _ _ _ hout => exact absurd ht (hout t).not_starting
  | during u hu hflag htaking hempty hout =>
      have htu : t = u := by
        by_contra hne
        exact (hout t hne).not_starting ht
      exact htu ▸ ⟨rfl, hempty, htaking, hflag, hout⟩
  | after _ _ _ hdone => exact absurd ht (hdone t)

/-- A thread tests the flag, and nobody is starting the queue. -/
theorem StartPhase.tested (h : StartPhase s seen) (halone : ∀ u, ¬s.Starting u) :
    StartPhase (s.moved t (some (if s.wqueueStarted then .through else .set))) seen := by
  have hother : ∀ {u} place, u ≠ t → (s.moved t place).place u = s.place u :=
    fun place hu => moved_place_of_ne place hu
  cases h with
  | before hflag htaking hempty hout =>
      rw [hflag]
      refine .during t (.inl (moved_place_self ..)) (fun hset => ?_) htaking hempty fun u hu => ?_
      · exact absurd (moved_place_self ..) hset
      · rw [StartUp.Outside, hother _ hu]
        exact hout u
  | during u hu _ _ _ _ => exact absurd hu (halone u)
  | after u hflag htaking hdone =>
      rw [hflag]
      refine .after u hflag htaking fun v => ?_
      by_cases hvt : v = t
      · exact fun hv => hv.not_through (hvt ▸ moved_place_self ..)
      · rw [StartUp.Starting, hother _ hvt]
        exact hdone v

/-- **A step of `step_pm_initialize_workqueue`**: the one thread that starts the queue goes on
with it, and does not touch a queue that is still empty. -/
theorem StartPhase.initWorkqueue (h : StartPhase s seen) {place : Place}
    (hplace : s.place t = some place) (hne : place ≠ .through)
    (halone : TestsAlone s (.initWorkqueue t)) :
    StartPhase ((stepPmInitializeWorkqueue s place).1.moved t
        (some (stepPmInitializeWorkqueue s place).2))
      (seen ++ queueStarts s (.initWorkqueue t)) ∧
      (stepPmInitializeWorkqueue s place).1.workQ = s.workQ := by
  have houtside : ∀ (s' : StartUp) (place' : Option Place) (u : Tid), s'.place = s.place →
      u ≠ t → s.Outside u → (s'.moved t place').Outside u := by
    intro s' place' u hs' hu hout
    rw [StartUp.Outside, moved_place_of_ne _ hu, hs']
    exact hout
  cases place with
  | test =>
      refine ⟨?_, rfl⟩
      have hseen : queueStarts s (.initWorkqueue t) = [] := by simp [queueStarts, hplace]
      rw [hseen, List.append_nil]
      exact h.tested (halone hplace)
  | set =>
      obtain ⟨rfl, hempty, htaking, hflag, hout⟩ := h.starter (.inl hplace)
      have hseen : queueStarts s (.initWorkqueue t) = [] := by simp [queueStarts, hplace]
      rw [hseen]
      exact ⟨.during t (.inr (.inl (moved_place_self ..))) (fun _ => rfl) htaking hempty
        fun u hu => houtside _ _ u rfl hu (hout u hu), rfl⟩
  | init =>
      obtain ⟨rfl, hempty, htaking, hflag, hout⟩ := h.starter (.inr (.inl hplace))
      have hseen : queueStarts s (.initWorkqueue t) = [] := by simp [queueStarts, hplace]
      rw [hseen]
      exact ⟨.during t (.inr (.inr (moved_place_self ..))) (fun _ => hflag (by simp [hplace])) rfl
        rfl fun u hu => houtside _ _ u rfl hu (hout u hu), WorkQueue.emptied hempty⟩
  | start =>
      obtain ⟨rfl, hempty, htaking, hflag, hout⟩ := h.starter (.inr (.inr hplace))
      have hseen : queueStarts s (.initWorkqueue t) = [t] := by simp [queueStarts, hplace]
      rw [hseen]
      refine ⟨.after t (hflag (by simp [hplace])) rfl fun u => ?_, WorkQueue.emptied hempty⟩
      by_cases hut : u = t
      · exact fun hu => hu.not_through (hut ▸ moved_place_self ..)
      · exact (houtside _ _ u rfl hut (hout u hut)).not_starting
  | through => exact absurd rfl hne

/-- `k_work_init` does not touch the list. -/
theorem queueStep_put_pending {q q' : WorkQueue} {mes : Option ℕ}
    (h : queueStep P q (.put t mes) = some q') : q'.pending = q.pending := by
  cases queueStep_move h <;> rfl

/-- A handler that returns does not touch the list. -/
theorem queueStep_done_pending {q q' : WorkQueue} (h : queueStep P q .done = some q') :
    q'.pending = q.pending := by
  cases queueStep_move h
  rfl

/-- **The step lemma of a serial start**: the phases follow each other, the queue sees what is
asked of it only, and nobody is refused.  Before the queue is there nobody gets beyond the test,
so nothing can be asked of it too early. -/
theorem startStep_phase (h : StartPhase s seen) (halone : TestsAlone s label)
    (hstep : startStep P s label = some s') :
    StartPhase s' (seen ++ queueStarts s label) ∧
      run (queueStep P) s.workQ (queueLabels s label) = some s'.workQ ∧
      putRefused s label = [] := by
  have hone : ∀ {ql q}, queueStep P s.workQ ql = some q →
      run (queueStep P) s.workQ [ql] = some q := by
    intro ql q hq
    rw [run_cons, hq]
    rfl
  have hsame : StartPhase s (seen ++ []) := (List.append_nil seen).symm ▸ h
  cases startStep_move hstep with
  | call hout => exact ⟨hsame.moved (by simp [StartUp.Starting, hout]) (.inr rfl), rfl, rfl⟩
  | initWorkqueue hplace hne =>
      obtain ⟨hphase, hqueue⟩ := h.initWorkqueue hplace hne halone
      exact ⟨hphase, congrArg some hqueue.symm, rfl⟩
  | put hplace hq => exact ⟨hsame.queue fun _ => queueStep_put_pending hq, hone hq, rfl⟩
  | submit hplace hq =>
      have htaking := h.taking hplace
      refine ⟨(hsame.queue fun hfalse => ?_).moved ?_ (.inl rfl), hone hq, ?_⟩
      · rw [htaking] at hfalse
        cases hfalse
      · exact fun hstarting => hstarting.not_through hplace
      · rw [putRefused, htaking]
        rfl
  | leave hplace _ =>
      exact ⟨hsame.moved (fun hstarting => hstarting.not_through hplace) (.inl rfl), rfl, rfl⟩
  | pop htaking hq =>
      refine ⟨hsame.queue fun hfalse => ?_, hone hq, rfl⟩
      rw [htaking] at hfalse
      cases hfalse
  | done hq => exact ⟨hsame.queue fun _ => queueStep_done_pending hq, hone hq, rfl⟩

/-- **One thread after the other.**  In every run from boot in which no thread tests
`step_pm_wqueue_started` while another one is starting the queue: the queue is started once at
most, whoever is behind `step_pm_initialize_workqueue` finds it started, no `step_pm_put` is
refused for want of a queue, and the queue has done what a queue does that takes work from
the first step on. -/
theorem serial_start (snode : Links ℕ) (work : ℕ → KWork)
    (halone : Meets (startStep P) TestsAlone (.boot snode work) labels)
    (hrun : run (startStep P) (.boot snode work) labels = some s) :
    (trace (startStep P) queueStarts (.boot snode work) labels).length ≤ 1 ∧
      (∀ t, s.place t = some .through → s.taking = true) ∧
      trace (startStep P) putRefused (.boot snode work) labels = [] ∧
      run (queueStep P) (.init snode work)
        (trace (startStep P) queueLabels (.boot snode work) labels) = some s.workQ := by
  have hphase : StartPhase s (trace (startStep P) queueStarts (.boot snode work) labels) :=
    run_trace_invariant (I := StartPhase) (fun _ _ _ _ h hc hs => (startStep_phase h hc hs).1)
      (startPhase_boot snode work) halone hrun
  obtain ⟨-, hrefused⟩ : (∃ seen, StartPhase s seen) ∧
      trace (startStep P) putRefused (.boot snode work) labels = [] :=
    run_trace_invariant (I := fun s refused => (∃ seen, StartPhase s seen) ∧ refused = [])
      (fun _ _ _ _ ⟨⟨_, h⟩, hnone⟩ hc hs =>
        have hstep := startStep_phase h hc hs
        ⟨⟨_, hstep.1⟩, by rw [hnone, hstep.2.2]; rfl⟩)
      ⟨⟨[], startPhase_boot snode work⟩, rfl⟩ halone hrun
  obtain ⟨-, hqueue⟩ : (∃ seen, StartPhase s seen) ∧
      run (queueStep P) (.init snode work)
        (trace (startStep P) queueLabels (.boot snode work) labels) = some s.workQ :=
    run_trace_invariant
      (I := fun s asked => (∃ seen, StartPhase s seen) ∧
        run (queueStep P) (.init snode work) asked = some s.workQ)
      (fun _ _ _ _ ⟨⟨_, h⟩, hbehind⟩ hc hs =>
        have hstep := startStep_phase h hc hs
        ⟨⟨_, hstep.1⟩, (run_append_eq_some _).mpr ⟨_, hbehind, hstep.2.1⟩⟩)
      ⟨⟨[], startPhase_boot snode work⟩, rfl⟩ halone hrun
  exact ⟨hphase.length_le, fun t ht => hphase.taking ht, hrefused, hqueue⟩

/-- A queue at boot, over cleared memory. -/
def StartUp.cleared : StartUp := .boot (fun _ => none) fun _ => ⟨false, false⟩

/-- Two threads come in, the second one while the first is starting the queue; it waits with
its test until the queue is there, and puts a measurement. -/
def oneAfterTheOther : List StartLabel :=
  [.call 1, .call 2, .initWorkqueue 1, .initWorkqueue 1, .initWorkqueue 1, .initWorkqueue 1,
    .initWorkqueue 2, .put 2 (some 10), .submit 2, .pop, .leave 1]

/-- With two threads inside, nobody else is starting the queue. -/
theorem atMostTwo (h₁ : ¬s.Starting 1) (h₂ : ¬s.Starting 2)
    (hnone : ∀ u, u ≠ 1 → u ≠ 2 → s.place u = none) (u : Tid) : ¬s.Starting u := by
  by_cases hu₁ : u = 1
  · exact hu₁ ▸ h₁
  · by_cases hu₂ : u = 2
    · exact hu₂ ▸ h₂
    · simp [StartUp.Starting, hnone u hu₁ hu₂]

/-- It is handled. -/
theorem serial_start_two :
    ∃ s, run (startStep Platform.tests) .cleared oneAfterTheOther = some s ∧
      run (queueStep Platform.tests) (.init (fun _ => none) fun _ => ⟨false, false⟩)
        [.put 2 (some 10), .submit 2 none, .pop] = some s.workQ ∧
      s.workQ.handling = some 10 := by
  have halone : Meets (startStep Platform.tests) TestsAlone .cleared oneAfterTheOther := by
    refine ⟨trivial, fun s₁ h₁ => ⟨trivial, fun s₂ h₂ => ⟨fun _ u => ?_, fun s₃ h₃ => ⟨?_,
      fun s₄ h₄ => ⟨?_, fun s₅ h₅ => ⟨?_, fun s₆ h₆ => ⟨fun _ u => ?_, ?_⟩⟩⟩⟩⟩⟩⟩
    all_goals
      obtain rfl := Option.some.inj h₁
      obtain rfl := Option.some.inj h₂
    · -- the second thread is still in front of its test
      exact atMostTwo (by decide) (by decide) (fun v hv hv' => by
        simp [StartUp.moved, StartUp.cleared, StartUp.boot, hv, hv']) u
    all_goals obtain rfl := Option.some.inj h₃
    · rintro ⟨⟩
    all_goals obtain rfl := Option.some.inj h₄
    · rintro ⟨⟩
    all_goals obtain rfl := Option.some.inj h₅
    · rintro ⟨⟩
    all_goals obtain rfl := Option.some.inj h₆
    · -- the first one has started the queue
      exact atMostTwo (by decide) (by decide) (fun v hv hv' => by
        simp [StartUp.moved, StartUp.cleared, StartUp.boot, hv, hv', kWorkQueueInit,
          kWorkQueueStart]) u
    · simp [Meets, TestsAlone]
  exact ⟨_, rfl, (serial_start _ _ halone rfl).2.2.2, rfl⟩

end Serial

/-! ### Two threads at a time -/

section Racing

variable {P : Platform} {s s' : StartUp} {label : StartLabel} {labels : List StartLabel}
  {t u : Tid} {place : Place} {mes : ℕ}

theorem stepPmInitializeWorkqueue_putting (s : StartUp) (place : Place) :
    (stepPmInitializeWorkqueue s place).1.workQ.putting = s.workQ.putting := by
  cases place <;> rfl

/-- A thread that is not through can always go on. -/
theorem startStep_initWorkqueue (hplace : s.place t = some place) (hne : place ≠ .through) :
    startStep P s (.initWorkqueue t) =
      some ((stepPmInitializeWorkqueue s place).1.moved t
        (some (stepPmInitializeWorkqueue s place).2)) := by
  rw [startStep, hplace]
  cases place with
  | through => exact absurd rfl hne
  | _ => rfl

/-- Whoever is between the two halves of `step_pm_put` is behind
`step_pm_initialize_workqueue`. -/
def PutsThrough (s : StartUp) : Prop :=
  ∀ t, s.workQ.putting t ≠ none → s.place t = some .through

theorem PutsThrough.moved (h : PutsThrough s) (hnone : s.workQ.putting t = none)
    (place : Option Place) : PutsThrough (s.moved t place) := by
  intro u hu
  have hut : u ≠ t := fun heq => hu (heq ▸ hnone)
  rw [moved_place_of_ne place hut]
  exact h u hu

/-- A thread that is not behind `step_pm_initialize_workqueue` is not in the middle of a
put. -/
theorem PutsThrough.putting_eq_none (h : PutsThrough s) (hplace : s.place t ≠ some .through) :
    s.workQ.putting t = none := by
  by_contra hput
  exact hplace (h t hput)

theorem startStep_putsThrough (h : PutsThrough s) (hstep : startStep P s label = some s') :
    PutsThrough s' := by
  cases startStep_move hstep with
  | call hout => exact h.moved (h.putting_eq_none (by simp [hout])) _
  | @initWorkqueue t place hplace hne =>
      have hnone := h.putting_eq_none (t := t) (by simp [hplace, hne])
      refine PutsThrough.moved (fun u hu => ?_) ?_ _
      · rw [stepPmInitializeWorkqueue_place]
        rw [stepPmInitializeWorkqueue_putting] at hu
        exact h u hu
      · rw [stepPmInitializeWorkqueue_putting]
        exact hnone
  | leave hplace hput => exact h.moved hput _
  | @put t mes q hplace hq =>
      cases queueStep_move hq with
      | null => exact h
      | @init _ mes hfree =>
          intro u (hu : Function.update s.workQ.putting t (some mes) u ≠ none)
          by_cases hut : u = t
          · exact hut ▸ hplace
          · rw [Function.update_of_ne hut] at hu
            exact h u hu
  | @submit t q hplace hq =>
      have hq' : q.putting = Function.update s.workQ.putting t none := by
        generalize s.refusal = refusal at hq
        cases queueStep_move hq <;> rfl
      have hrest : PutsThrough { s with workQ := q } := by
        intro u (hu : q.putting u ≠ none)
        rw [hq'] at hu
        by_cases hut : u = t
        · rw [hut, Function.update_self] at hu
          exact absurd rfl hu
        · rw [Function.update_of_ne hut] at hu
          exact h u hu
      exact hrest.moved (by simp [hq']) none
  | pop _ hq =>
      cases queueStep_move hq
      exact h
  | done hq =>
      cases queueStep_move hq
      exact h

/-- **The flag is set in front of the start**: whoever is about to initialise or to start the
queue has set it, and nobody clears it.  This is the order of the statements in the source, and
the reason why a thread that finds the flag set cannot conclude that the queue is there. -/
def FlagFirst (s : StartUp) : Prop :=
  ∀ t, s.place t = some .init ∨ s.place t = some .start → s.wqueueStarted = true

theorem startStep_flagFirst (h : FlagFirst s) (hstep : startStep P s label = some s') :
    FlagFirst s' := by
  have hmoved : ∀ {s : StartUp} {t : Tid} {place : Option Place}, FlagFirst s →
      place ≠ some .init → place ≠ some .start → FlagFirst (s.moved t place) := by
    intro s t place h hinit hstart v hv
    by_cases hvt : v = t
    · rw [hvt, moved_place_self] at hv
      exact absurd hv (not_or.mpr ⟨hinit, hstart⟩)
    · rw [moved_place_of_ne place hvt] at hv
      exact h v hv
  cases startStep_move hstep with
  | call _ => exact hmoved h (by simp) (by simp)
  | leave _ _ => exact hmoved h (by simp) (by simp)
  | submit _ _ => exact hmoved (s := { s with workQ := _ }) h (by simp) (by simp)
  | put _ _ => exact h
  | pop _ _ => exact h
  | done _ => exact h
  | @initWorkqueue t place hplace hne =>
      cases place with
      | test =>
          refine hmoved h ?_ ?_ <;>
            cases hflag : s.wqueueStarted <;> simp [stepPmInitializeWorkqueue, hflag]
      | set => exact fun _ _ => rfl
      | init => exact fun _ _ => h t (.inl hplace)
      | start => exact fun _ _ => h t (.inr hplace)
      | through => exact absurd rfl hne

/-- **Nobody has started the queue**, and so it takes no work. -/
theorem startStep_taking (h : s.taking = false) (hstep : startStep P s label = some s')
    (hnone : queueStarts s label = []) : s'.taking = false := by
  cases startStep_move hstep with
  | @initWorkqueue t place hplace _ =>
      cases place with
      | start => simp [queueStarts, hplace] at hnone
      | init => rfl
      | _ => exact h
  | _ => exact h

/-- What is known of a run in which nobody has called `k_work_queue_start` yet. -/
theorem run_unstarted (snode : Links ℕ) (work : ℕ → KWork)
    (hrun : run (startStep P) (.boot snode work) labels = some s)
    (hnone : trace (startStep P) queueStarts (.boot snode work) labels = []) :
    s.taking = false ∧ FlagFirst s ∧ PutsThrough s := by
  have htaking : trace (startStep P) queueStarts (.boot snode work) labels = [] →
      s.taking = false :=
    run_trace_invariant (I := fun s starts => starts = [] → s.taking = false)
      (fun _ _ _ _ h _ hs hstarts =>
        startStep_taking (h (List.append_eq_nil_iff.mp hstarts).1) hs
          (List.append_eq_nil_iff.mp hstarts).2)
      (fun _ => rfl) meets_true hrun
  refine ⟨htaking hnone, ?_, ?_⟩
  · exact run_preserves (fun _ _ _ h hs => startStep_flagFirst h hs)
      (fun t ht => by simp [StartUp.boot] at ht) hrun
  · exact run_preserves (fun _ _ _ h hs => startStep_putsThrough h hs)
      (fun t ht => absurd rfl ht) hrun

/-- Thread `t` comes in, finds the flag set, and puts `mes`. -/
def putLabels (t : Tid) (mes : ℕ) : List StartLabel :=
  [.call t, .initWorkqueue t, .put t (some mes), .submit t]

/-- **A thread that finds the flag set puts a measurement into a queue that is not there.** The
thread that has set the flag need only be somewhere between the flag and the start. -/
theorem exists_refused (hflag : s.wqueueStarted = true) (htaking : s.taking = false)
    (hout : s.place t = none) (hput : s.workQ.putting t = none) (mes : ℕ) :
    ∃ s', run (startStep P) s (putLabels t mes) = some s' ∧
      trace (startStep P) queueStarts s (putLabels t mes) = [] ∧
      trace (startStep P) putRefused s (putLabels t mes) = [mes] := by
  let s₁ := s.moved t (some .test)
  let s₂ := s₁.moved t (some .through)
  let q := (stepPmPutInit s.workQ t (some mes)).1
  have h₁ : startStep P s (.call t) = some s₁ := by simp [startStep, hout, s₁]
  have h₂ : startStep P s₁ (.initWorkqueue t) = some s₂ := by
    rw [startStep_initWorkqueue (moved_place_self s t _) (by simp)]
    simp [stepPmInitializeWorkqueue, s₁, s₂, StartUp.moved, hflag]
  have h₃ : startStep P s₂ (.put t (some mes)) = some { s₂ with workQ := q } := by
    simp [startStep, s₂, s₁, StartUp.moved, queueStep, hput, q]
  have hq : q.putting t = some mes := Function.update_self ..
  obtain ⟨s₄, h₄⟩ : ∃ s₄, startStep P { s₂ with workQ := q } (.submit t) = some s₄ := by
    simp [startStep, s₂, s₁, StartUp.moved, queueStep, hq]
  have htaking' : s₂.taking = false := htaking
  refine ⟨s₄, ?_, ?_, ?_⟩
  · simp [putLabels, run_cons, h₁, h₂, h₃, h₄]
  · rw [putLabels, trace_cons h₁, trace_cons h₂, trace_cons h₃, trace_cons h₄]
    simp [queueStarts, s₁, trace]
  · rw [putLabels, trace_cons h₁, trace_cons h₂, trace_cons h₃, trace_cons h₄]
    simp [putRefused, htaking', hq, trace]

/-- **Two threads side by side**, behind the test of the flag: each of them takes its step. -/
theorem exists_side_by_side (hu : s.place u = some place) (ht : s.place t = some place)
    (hut : u ≠ t) (hthrough : place ≠ .through) (htest : place ≠ .test) :
    ∃ s', run (startStep P) s [.initWorkqueue u, .initWorkqueue t] = some s' ∧
      s'.place u = some (stepPmInitializeWorkqueue s place).2 ∧
      s'.place t = some (stepPmInitializeWorkqueue s place).2 ∧
      trace (startStep P) queueStarts s [.initWorkqueue u, .initWorkqueue t] =
        if place = .start then [u, t] else [] := by
  have hstep := startStep_initWorkqueue (P := P) hu hthrough
  let s₁ := (stepPmInitializeWorkqueue s place).1.moved u
    (some (stepPmInitializeWorkqueue s place).2)
  have ht₁ : s₁.place t = some place := by
    rw [moved_place_of_ne _ hut.symm, stepPmInitializeWorkqueue_place]
    exact ht
  have hstep' := startStep_initWorkqueue (P := P) ht₁ hthrough
  -- where a thread is then does not depend on the other one
  have hsame : (stepPmInitializeWorkqueue s₁ place).2 = (stepPmInitializeWorkqueue s place).2 := by
    cases place with
    | test => exact absurd rfl htest
    | _ => rfl
  refine ⟨_, (run_cons_eq_some _).mpr ⟨_, hstep, (run_cons_eq_some _).mpr ⟨_, hstep', rfl⟩⟩,
    ?_, ?_, ?_⟩
  · rw [moved_place_of_ne _ hut, stepPmInitializeWorkqueue_place]
    exact moved_place_self ..
  · rw [moved_place_self, hsame]
  · rw [trace_cons hstep, trace_cons hstep', trace, queueStarts, queueStarts, hu, ht₁]
    by_cases hstart : place = .start <;> simp [hstart]

/-- **Two threads that have both found the flag clear** both start the queue.  Test and set are
two accesses, and nothing is locked around them. -/
theorem exists_started_twice (hu : s.place u = some .set) (ht : s.place t = some .set)
    (hut : u ≠ t) :
    ∃ more s', run (startStep P) s more = some s' ∧
      trace (startStep P) queueStarts s more = [u, t] := by
  obtain ⟨s₁, hs₁, hu₁, ht₁, hnone₁⟩ := exists_side_by_side (P := P) hu ht hut (by simp) (by simp)
  obtain ⟨s₂, hs₂, hu₂, ht₂, hnone₂⟩ :=
    exists_side_by_side (P := P) hu₁ ht₁ hut (by simp [stepPmInitializeWorkqueue])
      (by simp [stepPmInitializeWorkqueue])
  obtain ⟨s₃, hs₃, -, -, hstarts⟩ :=
    exists_side_by_side (P := P) hu₂ ht₂ hut (by simp [stepPmInitializeWorkqueue])
      (by simp [stepPmInitializeWorkqueue])
  refine ⟨_, s₃, (run_append_eq_some _).mpr ⟨s₁, hs₁, (run_append_eq_some _).mpr ⟨s₂, hs₂, hs₃⟩⟩,
    ?_⟩
  rw [trace_append _ hs₁, trace_append _ hs₂, hnone₁, hnone₂, hstarts]
  rfl

/-- **Two threads at a time.**  In every run from boot in which some thread is starting the
queue and nobody has called `k_work_queue_start` yet, any other thread that comes in can have
its call of `step_pm_put`, for whatever measurement, refused with -ENODEV, while still nobody
has called `k_work_queue_start`; and if the flag is still clear, it can come to call
`k_work_queue_start` itself, on the queue that the first thread has just started. -/
theorem racing_start (snode : Links ℕ) (work : ℕ → KWork)
    (hrun : run (startStep P) (.boot snode work) labels = some s)
    (hnone : trace (startStep P) queueStarts (.boot snode work) labels = [])
    (hu : s.Starting u) (hout : s.place t = none) (mes : ℕ) :
    (∃ more s', run (startStep P) s more = some s' ∧
        trace (startStep P) queueStarts s more = [] ∧
        trace (startStep P) putRefused s more = [mes]) ∧
      (s.wqueueStarted = false → ∃ more s', run (startStep P) s more = some s' ∧
        trace (startStep P) queueStarts s more = [u, t]) := by
  obtain ⟨htaking, hflagFirst, hputs⟩ := run_unstarted snode work hrun hnone
  have hput : s.workQ.putting t = none := hputs.putting_eq_none (by simp [hout])
  have hut : u ≠ t := by
    rintro rfl
    simp [StartUp.Starting, hout] at hu
  -- the flag is set unless the thread stands right in front of setting it
  have hset : s.wqueueStarted = true ∨ s.place u = some .set := by
    rcases hu with hu | hu | hu
    · exact .inr hu
    · exact .inl (hflagFirst u (.inl hu))
    · exact .inl (hflagFirst u (.inr hu))
  constructor
  · by_cases hflag : s.wqueueStarted = true
    · obtain ⟨s', hs', hstarts, hrefused⟩ := exists_refused (P := P) hflag htaking hout hput mes
      exact ⟨_, s', hs', hstarts, hrefused⟩
    · have hplace := hset.resolve_left hflag
      have hstep := startStep_initWorkqueue (P := P) hplace (by simp)
      obtain ⟨s', hs', hstarts, hrefused⟩ := exists_refused (P := P) (t := t)
        (s := (stepPmInitializeWorkqueue s .set).1.moved u (some .init)) rfl htaking
        (by rw [moved_place_of_ne _ hut.symm]; exact hout) hput mes
      refine ⟨.initWorkqueue u :: putLabels t mes, s', (run_cons_eq_some _).mpr ⟨_, hstep, hs'⟩,
        ?_, ?_⟩
      · rw [trace_cons hstep]
        have hone : queueStarts s (.initWorkqueue u) = [] := by simp [queueStarts, hplace]
        rw [hone]
        exact hstarts
      · rw [trace_cons hstep]
        exact hrefused
  · intro hflag
    have hplace := hset.resolve_left (by simp [hflag])
    -- the other thread comes in, and finds the flag clear as well
    have hcall : startStep P s (.call t) = some (s.moved t (some .test)) := by
      simp [startStep, hout]
    have htest := startStep_initWorkqueue (P := P) (moved_place_self s t (some .test)) (by simp)
    have hfound : (stepPmInitializeWorkqueue (s.moved t (some .test)) .test).2 = .set := by
      simp [stepPmInitializeWorkqueue, StartUp.moved, hflag]
    rw [hfound] at htest
    obtain ⟨more, s', hs', hstarts⟩ := exists_started_twice (P := P)
      (s := (s.moved t (some .test)).moved t (some .set))
      (by rw [moved_place_of_ne _ hut, moved_place_of_ne _ hut]; exact hplace)
      (moved_place_self ..) hut
    refine ⟨.call t :: .initWorkqueue t :: more, s',
      (run_cons_eq_some _).mpr ⟨_, hcall, (run_cons_eq_some _).mpr ⟨_, htest, hs'⟩⟩, ?_⟩
    have hnone' : queueStarts (s.moved t (some .test)) (.initWorkqueue t) = [] := by
      simp [queueStarts]
    rw [trace_cons hcall, trace_cons htest, hnone']
    exact hstarts

/-- The first thread has come in, and is about to set the flag. -/
theorem racing_start_at_boot :
    ∃ s, run (startStep Platform.tests) .cleared [.call 1, .initWorkqueue 1] = some s ∧
      (∃ more s', run (startStep Platform.tests) s more = some s' ∧
        trace (startStep Platform.tests) queueStarts s more = [] ∧
        trace (startStep Platform.tests) putRefused s more = [10]) ∧
      ∃ more s', run (startStep Platform.tests) s more = some s' ∧
        trace (startStep Platform.tests) queueStarts s more = [1, 2] := by
  obtain ⟨s, hrun, hnone, hu, hout, hflag⟩ : ∃ s,
      run (startStep Platform.tests) .cleared [.call 1, .initWorkqueue 1] = some s ∧
        trace (startStep Platform.tests) queueStarts .cleared [.call 1, .initWorkqueue 1] = [] ∧
        s.Starting 1 ∧ s.place 2 = none ∧ s.wqueueStarted = false :=
    ⟨_, rfl, rfl, by decide, by decide, rfl⟩
  obtain ⟨hrefused, htwice⟩ := racing_start _ _ hrun hnone hu hout 10
  exact ⟨s, hrun, hrefused, htwice hflag⟩

end Racing

end StepPipeline
