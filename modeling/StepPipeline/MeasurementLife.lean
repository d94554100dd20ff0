import StepPipeline.Pipeline

/-!
# The life of a measurement

Which bytes of measurements the steps of the pipeline read and write, and when these are
bytes that `step_pm_process` has freed and that nobody has allocated again.

* `Touches` — the bytes of measurements that a step reads or writes;
* `WithoutPayload`, `ReturnsInUse` — **the condition**: no measurement has a payload, and
  an item is in use when the queue clears its RUNNING flag; `StaysApart` — payloads are
  harmless where no stray access hits the memory of another measurement;
* `released_untouched_iff` — released memory is touched in no step, exactly under this
  condition; `clears_running_in_released` — and it is touched whenever a measurement is
  processed and its memory is not allocated again at once.

## The two ways back into released memory

One is the payload.  The pointer that `step_sp_alloc` stores leads out of the block, so
whoever goes by it may arrive in a block that has been freed, or in one that is in use and
belongs to somebody else.  Without payloads there is no such access; with payloads the
result is stated for the runs in which no access of this kind hits a measurement.

The other one is the work item itself.  The measurement is freed inside the handler of the
item that is embedded in it, and behind the handler Zephyr clears the RUNNING flag of that
item.  Nothing in the repository can prevent this short of freeing the measurement later,
so here the condition is necessary: the write goes to released memory unless the memory has
been allocated again in the meantime, at the same address.
-/

namespace StepPipeline

open IntrusiveList LabelledRun ByteMemory

variable {Ω : Type}

/-! ### What a step touches -/

/-- **The bytes of measurements a step reads or writes.**  The block that is just allocated
is left out: its memory has been allocated when it is written.  While a measurement is
processed, its nodes may read the payload. -/
def Touches (B : ItemBuild) (s : Pipeline Ω) : PipelineLabel Ω → ℕ → Prop
  | .alloc _ sz (some mes), a =>
      InRange (payloadOf B.toPoolBuild mes sz) sz.toNat a ∧ ¬InRange mes (B.size + sz.toNat) a
  | .write _ addr _, a => a = addr
  | .put _ (some mes), a => InRange mes B.sizeofWork a
  | .submit t refusal, a =>
      (∃ mes, s.queue.putting t = some mes ∧ InRange mes B.sizeofWork a) ∨
        -- the new item is linked in behind the last one
        refusal = none ∧ ∃ last, s.queue.pending.tail = some last ∧ InRange last B.sizeofWork a
  | .pop, a => ∃ mes, s.queue.pending.head = some mes ∧
      (InRange mes B.size a ∨ InPayload B.toPoolBuild s.pool.mem mes a)
  | .proc _, a => ∃ p, s.sys.proc = some p ∧
      (InRange p.mesAddr B.size a ∨ InPayload B.toPoolBuild s.pool.mem p.mesAddr a)
  | .done, a => ∃ mes, s.queue.handling = some mes ∧ InRange mes B.sizeofWork a
  | .alloc _ _ none, _ | .put _ none, _ | .other _ _, _ => False

/-- **The step touches no released memory.** All accesses of a step are meant, those of the pool
and of the kernel included. -/
def Untouched (B : ItemBuild) (s : Pipeline Ω) (label : PipelineLabel Ω) : Prop :=
  ∀ a, Touches B s label a → s.released a = false

/-- The payload of the measurement at `mes` has no byte that has been released. -/
def Pipeline.PayloadKept (B : PoolBuild) (s : Pipeline Ω) (mes : ℕ) : Prop :=
  ∀ i < (readHeader B s.pool.mem mes).srclenLen.toNat,
    s.released (readPayload B s.pool.mem mes + i) = false

instance (B : PoolBuild) (s : Pipeline Ω) (mes : ℕ) : Decidable (s.PayloadKept B mes) :=
  inferInstanceAs (Decidable (∀ i < _, _))

/-- **No stray access hits the memory of another measurement**: neither one through a
payload pointer, which leads out of the block it belongs to, nor the write to the flags of
an item whose memory has been allocated again, as part of another block. -/
def StaysApart (B : ItemBuild) (s : Pipeline Ω) : PipelineLabel Ω → Prop
  | .alloc _ sz (some mes) =>
      ∀ i < sz.toNat, InRange mes (B.size + sz.toNat) (payloadOf B.toPoolBuild mes sz + i) ∨
        s.released (payloadOf B.toPoolBuild mes sz + i) = false ∧
          ∀ b ∈ s.blocks, ¬b.InBlock B.toPoolBuild (payloadOf B.toPoolBuild mes sz + i)
  | .write mes addr _ =>
      s.released addr = false ∧
        ∀ b ∈ s.blocks, b.mes ≠ mes → ¬b.InBlock B.toPoolBuild addr
  | .pop => ∀ mes ∈ s.queue.pending.head, s.PayloadKept B.toPoolBuild mes
  | .proc _ => ∀ p ∈ s.sys.proc, s.PayloadKept B.toPoolBuild p.mesAddr
  | .done =>
      ∀ mes ∈ s.queue.handling, ∀ b ∈ s.blocks, b.mes ≠ mes →
        ∀ i < B.sizeofWork, ¬b.InBlock B.toPoolBuild (mes + i)
  | _ => True

instance StaysApart.decidable (B : ItemBuild) (s : Pipeline Ω) :
    ∀ label, Decidable (StaysApart B s label)
  | .alloc _ _ (some _) => inferInstanceAs (Decidable (∀ i < _, _ ∨ (_ ∧ ∀ b ∈ s.blocks, _)))
  | .write _ _ _ => inferInstanceAs (Decidable (_ ∧ ∀ b ∈ s.blocks, _))
  | .pop => inferInstanceAs (Decidable (∀ mes ∈ s.queue.pending.head, _))
  | .proc _ => inferInstanceAs (Decidable (∀ p ∈ s.sys.proc, _))
  | .done => inferInstanceAs (Decidable (∀ mes ∈ s.queue.handling, ∀ b ∈ s.blocks, _))
  | .alloc _ _ none | .put _ _ | .submit _ _ | .other _ _ => isTrue trivial

/-- **No measurement has a payload**: none is asked for, writers keep to the header, and
the header of what is processed says so. -/
def WithoutPayload (B : ItemBuild) (s : Pipeline Ω) : PipelineLabel Ω → Prop
  | .alloc _ sz _ => sz = 0
  | .write mes addr _ => InRange (mes + B.header) sizeofMesHeader addr
  | .pop => ∀ mes ∈ s.queue.pending.head,
      (readHeader B.toPoolBuild s.pool.mem mes).srclenLen = 0
  | .proc _ => ∀ p ∈ s.sys.proc,
      (readHeader B.toPoolBuild s.pool.mem p.mesAddr).srclenLen = 0
  | _ => True

instance WithoutPayload.decidable (B : ItemBuild) (s : Pipeline Ω) :
    ∀ label, Decidable (WithoutPayload B s label)
  | .alloc _ sz _ => inferInstanceAs (Decidable (sz = 0))
  | .write mes addr _ => inferInstanceAs (Decidable (InRange (mes + B.header) _ addr))
  | .pop => inferInstanceAs (Decidable (∀ mes ∈ s.queue.pending.head, _))
  | .proc _ => inferInstanceAs (Decidable (∀ p ∈ s.sys.proc, _))
  | .put _ _ | .submit _ _ | .done | .other _ _ => isTrue trivial

/-- **The item in which RUNNING is cleared is in use**: it has not been freed, or it has been
allocated again.  The second case is no better for whoever has allocated it; that is what
`StaysApart` is about. -/
def ReturnsInUse (s : Pipeline Ω) : PipelineLabel Ω → Prop
  | .done => ∀ mes ∈ s.queue.handling, ∃ b ∈ s.blocks, b.mes = mes
  | _ => True

instance ReturnsInUse.decidable (s : Pipeline Ω) : ∀ label, Decidable (ReturnsInUse s label)
  | .done => inferInstanceAs (Decidable (∀ mes ∈ s.queue.handling, ∃ b ∈ s.blocks, _))
  | .alloc _ _ _ | .write _ _ _ | .put _ _ | .submit _ _ | .pop | .proc _ | .other _ _ =>
      isTrue trivial

/-! ### Released memory -/

section Released

variable {B : ItemBuild} {P : Platform} {s s' : Pipeline Ω} {label : PipelineLabel Ω}

theorem Pipeline.PayloadKept.not_released {mes a : ℕ} (h : s.PayloadKept B.toPoolBuild mes)
    (ha : InPayload B.toPoolBuild s.pool.mem mes a) : s.released a = false := by
  obtain ⟨i, rfl⟩ := Nat.exists_eq_add_of_le ha.1
  exact h i (Nat.add_lt_add_iff_left.mp ha.2)

theorem Pipeline.payloadKept_of_len_eq_zero {mes : ℕ}
    (hlen : (readHeader B.toPoolBuild s.pool.mem mes).srclenLen = 0) :
    s.PayloadKept B.toPoolBuild mes := by
  intro i hi
  rw [hlen] at hi
  exact absurd hi (Nat.not_lt_zero i)

/-- **Without payloads no access strays**: what is written is a byte of the header of a
measurement in somebody's hands, or of an item in use. -/
theorem PipelineInvariant.staysApart (h : PipelineInvariant B s)
    (hstep : pipelineStep B.toPoolBuild P s label = some s')
    (hkeeps : KeepsToInterface B.toPoolBuild s label) (hnone : WithoutPayload B s label)
    (hreturns : ReturnsInUse s label) : StaysApart B s label := by
  cases pipelineStep_move hstep with
  | alloc _ _ =>
      intro i hi
      rw [show _ = 0#16 from hnone] at hi
      exact absurd hi (Nat.not_lt_zero i)
  | @write mes addr byte pool _ =>
      have hheld : s.holder mes ≠ .nobody := by
        rcases hkeeps.1 with hholder | hholder <;> simp [hholder]
      have hin : InRange mes B.size addr := by
        have hheader := B.header_le
        have hpayload := B.payload_le
        obtain ⟨hle, hlt⟩ := hnone
        exact ⟨by omega, by omega⟩
      refine ⟨h.not_released hheld hin, fun c hc hne => ?_⟩
      obtain ⟨b, hb, rfl⟩ := h.held mes hheld
      exact h.not_inBlock hb hc hne ⟨hin.1, by have := hin.2; omega⟩
  | pop _ _ _ => exact fun mes hmes => Pipeline.payloadKept_of_len_eq_zero (hnone mes hmes)
  | proc _ _ _ | keep _ _ _ _ | free _ _ _ _ _ =>
      exact fun p hp => Pipeline.payloadKept_of_len_eq_zero (hnone p hp)
  | done _ _ =>
      intro mes hmes c hc hne i hi
      obtain ⟨b, hb, rfl⟩ := hreturns mes hmes
      refine h.not_inBlock hb hc hne ⟨by omega, ?_⟩
      have hsize := B.sizeofWork_le_size
      omega
  | refuse _ | putNull _ | put _ | submit _ _ | other _ => trivial

/-- **Clearing the RUNNING flag**: the item is untouched as released memory exactly if the
block it lies in is in use. -/
theorem PipelineInvariant.untouched_done_iff (h : PipelineInvariant B s)
    (hapart : StaysApart B s .done) : Untouched B s .done ↔ ReturnsInUse s .done := by
  constructor
  · intro huntouched mes hhandling
    have hfirst : InRange mes B.sizeofWork mes := ⟨le_rfl, Nat.lt_add_of_pos_right B.sizeofWork_pos⟩
    have hkept := huntouched mes ⟨mes, hhandling, hfirst⟩
    rcases h.handled mes hhandling mes hfirst with hreleased | ⟨b, hb, hin⟩
    · rw [hkept] at hreleased
      cases hreleased
    · refine ⟨b, hb, ?_⟩
      by_contra hne
      exact hapart mes hhandling b hb hne 0 B.sizeofWork_pos hin
  · rintro hreturns a ⟨mes, hhandling, ha⟩
    obtain ⟨b, hb, rfl⟩ := hreturns mes hhandling
    have hin : b.InBlock B.toPoolBuild a := ⟨ha.1, by have := ha.work.2; omega⟩
    by_contra hne
    exact h.released a (by simpa using hne) b hb hin

/-- **In every other step** what is touched is in somebody's hands, or a stray access that
stays apart. -/
theorem PipelineInvariant.untouched (h : PipelineInvariant B s) (hapart : StaysApart B s label)
    (hkeeps : KeepsToInterface B.toPoolBuild s label)
    (hstep : pipelineStep B.toPoolBuild P s label = some s')
    (hreturns : ReturnsInUse s label) : Untouched B s label := by
  intro a ha
  cases pipelineStep_move hstep with
  | refuse _ => exact absurd ha id
  | @alloc t sz mes pool _ hpool =>
      obtain ⟨⟨hle, hlt⟩, hout⟩ := ha
      obtain ⟨i, rfl⟩ := Nat.exists_eq_add_of_le hle
      rcases hapart i (by omega) with hin | ⟨hkept, -⟩
      · exact absurd hin hout
      · exact hkept
  | write _ =>
      obtain rfl : a = _ := ha
      exact hapart.1
  | putNull _ => exact absurd ha id
  | put _ => exact h.not_released (by simp [show s.holder _ = .producer from hkeeps]) ha.work
  | submit hput _ =>
      obtain ⟨l, hinv, hl⟩ := h.queue
      rcases ha with ⟨mes, hput', hin⟩ | ⟨-, last, hlast, hin⟩
      · exact h.not_released (by simp [h.putting _ mes hput']) hin.work
      · rw [hinv.holds.tail] at hlast
        exact h.not_released (by simp [hl last (List.mem_of_getLast? hlast)]) hin.work
  | pop _ _ _ =>
      obtain ⟨l, hinv, hl⟩ := h.queue
      obtain ⟨mes, hhead, hin | hin⟩ := ha
      · rw [hinv.holds.head_eq] at hhead
        exact h.not_released (by simp [hl mes (List.mem_of_mem_head? hhead)]) hin
      · exact (hapart mes hhead).not_released hin
  | proc _ _ _ | keep _ _ _ _ | free _ _ _ _ _ =>
      obtain ⟨p, hproc, hin | hin⟩ := ha
      · exact h.not_released (by simp [(h.handler p hproc).1]) hin
      · exact (hapart p hproc).not_released hin
  | done _ _ => exact (h.untouched_done_iff hapart).mpr hreturns a ha
  | other _ => exact absurd ha id

/-- **Released measurements are not touched, exactly.**  In every run of producers that
keep to the interface, the work-queue thread and calls of the registry interface, no step
reads or writes memory that `step_pm_process` has freed and that has not been allocated
again if no measurement has a payload and, whenever the queue clears the RUNNING flag, the
item is in use.  The latter is necessary as well; and payloads do no harm as long as no
access strays. -/
theorem released_untouched_iff (B : ItemBuild) (P : Platform) (I : Image B.toPoolBuild)
    {labels : List (PipelineLabel Ω)}
    (hrun : run (pipelineStep B.toPoolBuild P) (.init P I) labels = some s)
    (hkeeps : Meets (pipelineStep B.toPoolBuild P) (KeepsToInterface B.toPoolBuild) (.init P I)
      labels) :
    (Meets (pipelineStep B.toPoolBuild P) (WithoutPayload B) (.init P I) labels →
        Meets (pipelineStep B.toPoolBuild P) ReturnsInUse (.init P I) labels →
        Meets (pipelineStep B.toPoolBuild P) (Untouched B) (.init P I) labels) ∧
      (Meets (pipelineStep B.toPoolBuild P) (StaysApart B) (.init P I) labels →
        (Meets (pipelineStep B.toPoolBuild P) (Untouched B) (.init P I) labels ↔
          Meets (pipelineStep B.toPoolBuild P) ReturnsInUse (.init P I) labels)) := by
  have hinv := pipelineInvariant_init (Ω := Ω) B P I
  refine ⟨fun hnone hreturns => ?_, fun hapart => ?_⟩
  · refine meets_of_run (fun _ _ _ h hl hstep => pipelineStep_invariant h hl.1 hstep) ?_ hinv
      (hkeeps.and (hnone.and hreturns)) hrun
    intro s label s' h hcond hstep
    obtain ⟨hkeeps, hnone, hreturns⟩ := hcond
    exact h.untouched (h.staysApart hstep hkeeps hnone hreturns) hkeeps hstep hreturns
  · refine meets_iff_meets (fun _ _ _ h hl hstep => pipelineStep_invariant h hl.1 hstep) ?_ hinv
      (hkeeps.and hapart) hrun
    intro s label s' h hcond hstep
    obtain ⟨hkeeps, hapart⟩ := hcond
    refine ⟨fun huntouched => ?_, h.untouched hapart hkeeps hstep⟩
    cases label with
    | done => exact (h.untouched_done_iff hapart).mp huntouched
    | _ => trivial

/-- A measurement without payload is allocated, put and processed. -/
def processedOnce : List (PipelineLabel Unit) :=
  let tick : PipelineLabel Unit := .proc ⟨(), (), 1, 0#32⟩
  [.alloc 1 0 (some 1024), .put 1 (some 1024), .submit 1 none, .pop, tick, tick, tick]

/-- The memory is allocated again before the queue comes back to it. -/
theorem released_untouched_iff_allocated_again :
    let step := pipelineStep (Ω := Unit) PoolBuild.words32 Platform.tests
    let labels := processedOnce ++ [.alloc 1 0 (some 1024), .done]
    Meets step (Untouched .words32) .cleared labels ∧
      (Meets step (Untouched .words32) .cleared labels ↔
        Meets step ReturnsInUse .cleared labels) := by
  obtain ⟨s, hrun⟩ : ∃ s, run (pipelineStep .words32 Platform.tests) .cleared
      (processedOnce ++ [.alloc 1 0 (some 1024), .done]) = some s := ⟨_, rfl⟩
  obtain ⟨henough, hexact⟩ := released_untouched_iff .words32 Platform.tests _ hrun (by decide)
  exact ⟨henough (by decide) (by decide), hexact (by decide)⟩

/-- **The RUNNING flag in released memory**: the measurement is freed inside the handler,
and behind the handler the queue writes to its item, payload or not. -/
theorem clears_running_in_released :
    ∃ s, run (pipelineStep .words32 Platform.tests) .cleared processedOnce = some s ∧
      s.blocks = [] ∧ s.released 1024 = true ∧
      Meets (pipelineStep .words32 Platform.tests) (KeepsToInterface .words32) .cleared
        (processedOnce ++ [.done]) ∧
      Meets (pipelineStep .words32 Platform.tests) (WithoutPayload .words32) .cleared
        (processedOnce ++ [.done]) ∧
      ¬Meets (pipelineStep .words32 Platform.tests) (Untouched .words32) .cleared
        (processedOnce ++ [.done]) := by
  obtain ⟨s, hrun, hlive, hreleased, hhandling⟩ : ∃ s,
      run (pipelineStep .words32 Platform.tests) .cleared processedOnce = some s ∧
      s.blocks = [] ∧ s.released 1024 = true ∧ s.queue.handling = some 1024 :=
    ⟨_, rfl, rfl, rfl, rfl⟩
  refine ⟨s, hrun, hlive, hreleased, by decide, by decide, fun hmeets => ?_⟩
  have hkept := hmeets.at_step hrun 1024 ⟨1024, hhandling, by decide⟩
  rw [hreleased] at hkept
  cases hkept

end Released

end StepPipeline
