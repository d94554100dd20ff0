import StepPipeline.BrokerRuns

/-!
# Laws of the broker

What follows for the processor manager from what a broker is.

* `Alike` — two measurements on their way that agree but for what the callbacks of a chain
  cannot see;
* `SameTable` — brokers that differ in the statistics of the cache only: nobody can tell
  them apart (`serves_carries`);
* `run_serviceable` — in every reachable state, whoever has called when, the statics
  implement a broker;
* `Grants` and `AllFit` — the heap of the callbacks, which has room for so many blocks, and
  what its answers come down to;
* `clear_restarts` — **`step_pm_clear` is a restart but for the blocks it leaks**: behind it
  the application sees what it might have seen right after start-up, with a heap that has as
  much less room.

## The heap and the requests

A `Request` for a subscription says whether the memory was granted, because the broker
allocates nothing.  That is right as long as it is asked what one system may do with its
requests.  To compare two systems is another matter: the blocks that a clear has leaked are
missing behind it, so that a subscription may fail with -ENOMEM there which a fresh system
grants.  So here the heap answers for itself.  It is assumed of `k_heap_alloc` only that,
asked for blocks of one size which nobody frees, it succeeds as long as fewer than some
number of them are in use; how many fit is a matter of its bookkeeping and left open.
-/

namespace StepPipeline

open LabelledRun Behaviour

variable {Ω : Type}

/-! ### What a chain cannot see -/

/-- The same measurement; `Q` relates return code and cache. -/
def Alike (Q : ℤ → StepCache → ℤ → StepCache → Prop) (d d' : Delivery) : Prop :=
  d.mes = d'.mes ∧ Q d.rc d.cache d'.rc d'.cache

section Alike

variable {Q : ℤ → StepCache → ℤ → StepCache → Prop} (mesAddr handle : ℕ)

theorem reportRuns_carries (n : StepNode Ω) (inst : ℕ) (phase : Phase) (code : ℤ) :
    Carries (Alike Q) (Alike Q) (ReportRuns mesAddr handle n inst phase code) := by
  rintro ⟨mes, rc, cache⟩ ⟨_, rc', cache'⟩ t r ⟨rfl, hQ⟩ h
  cases h with
  | reported e herror world => exact ⟨_, .reported e herror world, .ok ⟨rfl, hQ⟩⟩
  | unreported hnone => exact ⟨_, .unreported hnone, .error _⟩

theorem handlerRuns_carries (n : StepNode Ω) (inst : ℕ) (phase : Phase) :
    Carries (Alike Q) (Alike Q) (HandlerRuns mesAddr handle n inst phase) := by
  rintro ⟨mes, rc, cache⟩ ⟨_, rc', cache'⟩ t r ⟨rfl, hQ⟩ h
  cases h with
  | absent hnone => exact ⟨_, .absent hnone, .ok ⟨rfl, hQ⟩⟩
  | done f hsome world mes hcode => exact ⟨_, .done f hsome world mes hcode, .ok ⟨rfl, hQ⟩⟩
  | failed f hsome world code mes hcode hne hreport =>
      obtain ⟨r', hreport', hend⟩ :=
        reportRuns_carries mesAddr handle n inst phase code ⟨mes, rc, cache⟩ ⟨mes, rc', cache'⟩
          _ _ ⟨rfl, hQ⟩ hreport
      refine ⟨r', .failed f hsome world code mes ?_ hne hreport', hend⟩
      exact hcode

theorem chainRuns_carries (inst : ℕ) (nodes : List (StepNode Ω)) :
    Carries (Alike Q) (Alike Q) (ChainRuns mesAddr handle inst nodes) := by
  refine Carries.each fun x _ => ?_
  exact (handlerRuns_carries mesAddr handle x.1 x.2 .start).seq
    ((handlerRuns_carries mesAddr handle x.1 x.2 .exec).seq
      (handlerRuns_carries mesAddr handle x.1 x.2 .stop))

theorem subscribersRun_carries (l : List (Subscription Ω)) :
    Carries (Alike Q) (Alike Q) (Each (SubscriberRuns mesAddr handle) l) := by
  refine Carries.each fun x _ => ?_
  rintro ⟨mes, rc, cache⟩ ⟨_, rc', cache'⟩ t r ⟨rfl, hQ⟩ h
  cases h with
  | absent hnone => exact ⟨_, .absent hnone, .ok ⟨rfl, hQ⟩⟩
  | called f hsome world => exact ⟨_, .called f hsome world, .ok ⟨rfl, hQ⟩⟩

end Alike

/-! ### The statistics of the cache -/

section SameTable

variable {P : Platform}

/-- Caches with the same records, where there is a cache. -/
def SameTable (P : Platform) (c c' : StepCache) : Prop :=
  P.filterCache = true → c.recs = c'.recs

theorem stepCacheCheck_congr {c c' : StepCache} (h : c.recs = c'.recs) (filter : BitVec 32)
    (handle : ℕ) (uptime : ℤ) :
    (stepCacheCheck c filter handle uptime).1 = (stepCacheCheck c' filter handle uptime).1 ∧
      (stepCacheCheck c filter handle uptime).2.1 =
        (stepCacheCheck c' filter handle uptime).2.1 ∧
      (stepCacheCheck c filter handle uptime).2.2.recs =
        (stepCacheCheck c' filter handle uptime).2.2.recs := by
  simp only [stepCacheCheck, h]
  cases c'.recs.findIdx? (StepCacheRec.keyed filter handle) <;> exact ⟨rfl, rfl, rfl⟩

/-- **A lookup does not read the statistics.** -/
theorem lookupVerdict_sameTable {c c' : StepCache} (h : SameTable P c c')
    (r : StepPmNodeRecord Ω) (mes : StepMeasurement) (mesAddr : ℕ) (rc : ℤ) (inp : Inputs Ω) :
    SameEnd (fun x x' => x.1 = x'.1 ∧ SameTable P x.2 x'.2)
      (lookupVerdict P c r mes mesAddr rc inp) (lookupVerdict P c' r mes mesAddr rc inp) := by
  unfold lookupVerdict
  cases hon : P.filterCache with
  | false =>
      simp only [Bool.false_eq_true, if_false]
      cases evaluateRecord r mes mesAddr rc inp with
      | error u => exact .error u
      | ok v => exact .ok ⟨rfl, h⟩
  | true =>
      obtain ⟨hhit, hresult, hrecs⟩ :=
        stepCacheCheck_congr (h hon) mes.header.filterBits r.handle inp.uptime
      simp only [if_true, hhit, hresult]
      split
      · exact .ok ⟨rfl, fun _ => hrecs⟩
      · cases evaluateRecord r mes mesAddr rc inp with
        | error u => exact .error u
        | ok v =>
            simp only [stepCacheAdd, insertSlot_congr hrecs, hrecs]
            cases (stepCacheCheck c' mes.header.filterBits r.handle inp.uptime).2.2.insertSlot with
            | none => exact .error _
            | some i => exact .ok ⟨rfl, fun _ => rfl⟩

/-- Deliveries that differ in the statistics of the cache only. -/
def SameDelivery (P : Platform) : Delivery → Delivery → Prop :=
  Alike fun rc cache rc' cache' => rc = rc' ∧ SameTable P cache cache'

theorem entryRuns_carries (mesAddr : ℕ) (e : BrokerEntry Ω) :
    Carries (SameDelivery P) (SameDelivery P) (EntryRuns P mesAddr e) := by
  rintro ⟨mes, rc, cache⟩ ⟨_, _, cache'⟩ t r ⟨rfl, rfl, htable⟩ h
  have hlookup := fun inp => lookupVerdict_sameTable htable e.record mes mesAddr rc inp
  cases h with
  | disabled hoff => exact ⟨_, .disabled hoff, .ok ⟨rfl, rfl, htable⟩⟩
  | invalid hon inp u hv =>
      have hsame := (hv ▸ hlookup inp).of_error
      exact ⟨_, .invalid hon inp u hsame, .error u⟩
  | rejected hon inp v after hv hzero =>
      obtain ⟨⟨_, after'⟩, hv', rfl, hafter⟩ := (hv ▸ hlookup inp).of_ok
      exact ⟨_, .rejected hon inp v after' hv' hzero, .ok ⟨rfl, rfl, hafter⟩⟩
  | accepted hon inp v after hv hne hrun =>
      obtain ⟨⟨_, after'⟩, hv', rfl, hafter⟩ := (hv ▸ hlookup inp).of_ok
      have hbody : Carries (SameDelivery P) (SameDelivery P)
          (Seq (ChainRuns mesAddr e.handle 0 (e.chain.head :: e.chain.rest))
            (Each (SubscriberRuns mesAddr e.handle) e.subscriptions)) :=
        (chainRuns_carries mesAddr e.handle 0 _).seq
          (subscribersRun_carries mesAddr e.handle e.subscriptions)
      obtain ⟨r', hrun', hend⟩ := hbody ⟨v.mes, v.rc, after⟩ ⟨v.mes, v.rc, after'⟩ _ _
        ⟨rfl, rfl, hafter⟩ hrun
      exact ⟨r', .accepted hon inp v after' hv' hne hrun', hend⟩

theorem dispatchRuns_carries (mesAddr : ℕ) (free : Bool) (entries : List (BrokerEntry Ω)) :
    Carries (SameDelivery P) (SameDelivery P) (DispatchRuns P mesAddr free entries) := by
  refine (Carries.each fun e _ => entryRuns_carries mesAddr e).seq ?_
  rintro d d' t r ⟨hmes, hrc, htable⟩ ⟨rfl, rfl⟩
  exact ⟨.ok d', ⟨hrc ▸ rfl, rfl⟩, .ok ⟨hmes, hrc, htable⟩⟩

/-- **Brokers that differ in the statistics of the cache only.** The statistics count, and nothing
reads them but their own printing function. -/
def SameBroker (P : Platform) (b b' : Broker Ω) : Prop :=
  ∃ cache, b' = { b with cache := cache } ∧ SameTable P b.cache cache

/-- What a request other than a dispatch is answered does not depend on the cache. -/
theorem answer_sameBroker {b b' : Broker Ω} (h : SameBroker P b b') (request : Request Ω) :
    (b.answer P request).1 = (b'.answer P request).1 ∧
      SameEnd (SameBroker P) (b.answer P request).2 (b'.answer P request).2 := by
  obtain ⟨cache, rfl, htable⟩ := h
  have hhandle : ∀ handle (f : BrokerEntry Ω → BrokerEntry Ω),
      (b.answerHandle P handle (b.alter handle f)).1 =
          (Broker.answerHandle P { b with cache := cache } handle
            (Broker.alter { b with cache := cache } handle f)).1 ∧
        SameEnd (SameBroker P) (b.answerHandle P handle (b.alter handle f)).2
          (Broker.answerHandle P { b with cache := cache } handle
            (Broker.alter { b with cache := cache } handle f)).2 := by
    intro handle f
    unfold Broker.answerHandle
    split
    · exact ⟨rfl, .ok ⟨cache, rfl, htable⟩⟩
    · split
      · exact ⟨rfl, .error _⟩
      · exact ⟨rfl, .ok ⟨cache, rfl, htable⟩⟩
  cases request with
  | process mesAddr mes free => exact ⟨rfl, .ok ⟨cache, rfl, htable⟩⟩
  | register node pri world =>
      simp only [Broker.answer]
      split
      · exact ⟨rfl, .ok ⟨cache, rfl, htable⟩⟩
      · cases (initLoop b.entries.length world 0 (node.head :: node.rest) 0 []).fault with
        | some u => exact ⟨rfl, .error u⟩
        | none => exact ⟨rfl, .ok ⟨cache, rfl, htable⟩⟩
  | clear =>
      refine ⟨rfl, .ok ⟨_, rfl, fun hon => ?_⟩⟩
      simp only [hon, if_true]
      rfl
  | enable handle => exact hhandle handle _
  | disable handle => exact hhandle handle _
  | subscribe handle cb userData granted =>
      simp only [Broker.answer]
      split
      · exact ⟨rfl, .ok ⟨cache, rfl, htable⟩⟩
      · split
        · exact ⟨rfl, .ok ⟨cache, rfl, htable⟩⟩
        · exact hhandle handle _

/-- **Nobody can tell them apart.** -/
theorem serves_carries (request : Request Ω) :
    Carries (SameBroker P) (SameBroker P) (Broker.Serves P request) := by
  intro b b' t r hsame hserves
  by_cases hprocess : ∃ mesAddr mes free, request = .process mesAddr mes free
  · obtain ⟨mesAddr, mes, free, rfl⟩ := hprocess
    obtain ⟨cache, rfl, htable⟩ := hsame
    obtain ⟨out, hruns, rfl⟩ := hserves
    obtain ⟨out', hruns', hend⟩ :=
      dispatchRuns_carries mesAddr free b.entries ⟨mes, 0, b.cache⟩ ⟨mes, 0, cache⟩ _ _
        ⟨rfl, rfl, htable⟩ hruns
    refine ⟨_, ⟨out', hruns', rfl⟩, ?_⟩
    cases hend with
    | ok h => exact .ok ⟨_, rfl, h.2.2⟩
    | error => exact .error _
  · have hanswer : ∀ (b : Broker Ω) t r,
        Broker.Serves P request b t r ↔ b.answer P request = (t, r) := by
      intro b t r
      cases request with
      | process mesAddr mes free => exact absurd ⟨mesAddr, mes, free, rfl⟩ hprocess
      | _ => exact Iff.rfl
    obtain ⟨hcalls, hend⟩ := answer_sameBroker hsame request
    rw [(hanswer b t r).mp hserves] at hcalls hend
    exact ⟨(b'.answer P request).2, (hanswer b' t _).mpr (Prod.ext hcalls.symm rfl), hend⟩

end SameTable

/-! ### Every reachable state -/

section Reachable

variable {P : Platform} {s s' s₀ s₁ : Sys Ω}

/-- **The statics implement a broker**, unless a step has left defined behaviour.  Unlike `Quiet`
it is said of states in the middle of a dispatch as well, where it is kept by whatever others do. -/
def Serviceable (P : Platform) (s : Sys Ω) : Prop :=
  LockDiscipline s ∧ (s.fault = none → ∃ b, Implements P s.pm b)

theorem sysStep_serviceable {l : Label Ω} (h : Serviceable P s)
    (hstep : sysStep P s l = some s') : Serviceable P s' := by
  refine ⟨sysStep_lockDiscipline h.1 hstep, fun hfault => ?_⟩
  obtain ⟨hnone, hmove⟩ := sysStep_move hstep
  obtain ⟨b, hb⟩ := h.2 hnone
  cases hmove with
  | process _ _ _ _ => exact ⟨b, hb⟩
  | proc _ hmove =>
      obtain ⟨regs, l, subsOf, hat⟩ := hb
      exact ⟨_, regs, l, subsOf, hat.of_sameRegistry hmove.sameRegistry⟩
  | other t c _ _ hheap =>
      obtain ⟨-, hstate⟩ := apiCall_implements hb hheap
      cases hr : (b.answer P c.request).2 with
      | ok b' =>
          rw [hr] at hstate
          exact ⟨b', hstate.2⟩
      | error u =>
          rw [hr] at hstate
          rw [show (s.afterCall (apiCall P s.pm c)).fault = some u from hstate] at hfault
          cases hfault

/-- **In every state of every run**, whoever has called when. -/
theorem run_serviceable {ls : List (Label Ω)}
    (hrun : run (sysStep P) (Sys.init P) ls = some s) : Serviceable P s := by
  have hinit : Serviceable P (Sys.init P : Sys Ω) := ⟨rfl, fun _ => ⟨_, implements_init P⟩⟩
  exact run_preserves (fun _ _ _ h hstep => sysStep_serviceable h hstep) hinit hrun

/-- A state in which nothing is in flight is a quiet one. -/
theorem Serviceable.quiet (h : Serviceable P s) (hproc : s.proc = none)
    (hfault : s.fault = none) : ∃ b, Quiet P s b := by
  obtain ⟨b, hb⟩ := h.2 hfault
  exact ⟨b, hproc, hfault, h.1, hb⟩

end Reachable

/-! ### The heap of the callbacks -/

/-- **The heap has room for `room` blocks.**  All that `step_callbacks_pool` ever hands out are
blocks of one size, and nobody gives one back; so it grants a block as long as fewer than
`room` are in use. -/
def Grants (room : ℕ) (s : Sys Ω) : Label Ω → Prop
  | .other _ (.subscribe handle _ _ block) =>
      handle ≤ s.pm.handleCounter → (block.isSome = true ↔ s.pm.subAllocated.length < room)
  | _ => True

instance Grants.decidable (room : ℕ) (s : Sys Ω) : ∀ l, Decidable (Grants room s l)
  | .other _ (.subscribe _ _ _ _) => inferInstanceAs (Decidable (_ → (_ ↔ _)))
  | .other _ (.register _ _ _) | .other _ .clear | .other _ (.enable _) | .other _ (.disable _)
  | .process _ _ _ | .proc _ => isTrue trivial

/-- A request as it is made: the answer of the heap is no part of it. -/
def Request.made : Request Ω → Request Ω
  | .subscribe handle cb userData _ => .subscribe handle cb userData true
  | request => request

/-- **What the application may see** from `s` on, with nobody calling while a measurement is
dispatched, of a heap with room for `room` blocks: it makes the requests, those behind a step
that leaves defined behaviour excepted. -/
def Seen (P : Platform) (room : ℕ) (s : Sys Ω) (requests : List (Request Ω)) (seen : List Call)
    (fault : Option UndefinedBehaviour) : Prop :=
  ∃ labels s', run (sysStep P) s labels = some s' ∧ Meets (sysStep P) Serial s labels ∧
    Meets (sysStep P) (Grants room) s labels ∧
    (labels.filterMap Label.request).map Request.made <+: requests ∧
    (s'.fault = none → (labels.filterMap Label.request).map Request.made = requests) ∧
    trace (sysStep P) (observe P) s labels = seen ∧ s'.fault = fault ∧
    (s'.proc = none ∨ s'.fault ≠ none)

/-- What the answers of the heap depend on. -/
structure Stock where
  /-- How many handles have been given out: a handle behind them is refused at once. -/
  handles : ℕ
  /-- How many blocks are in use. -/
  blocks : ℕ

def Sys.stock (s : Sys Ω) : Stock := ⟨s.pm.handleCounter, s.pm.subAllocated.length⟩

/-- The stock behind a request. -/
def Request.restock (P : Platform) (k : Stock) : Request Ω → Stock
  | .register _ _ _ => ⟨if k.handles = P.nodeLimit then k.handles else k.handles + 1, k.blocks⟩
  | .clear => ⟨0, k.blocks⟩
  | .subscribe handle _ _ granted =>
      ⟨k.handles, if handle ≤ k.handles ∧ granted then k.blocks + 1 else k.blocks⟩
  | .enable _ | .disable _ | .process _ _ _ => k

/-- The heap answers a request as its stock demands: a subscription that gets as far as the heap
is granted exactly if there is room. -/
def Request.Fits (room : ℕ) (k : Stock) : Request Ω → Prop
  | .subscribe handle _ _ granted => handle ≤ k.handles → (granted = true ↔ k.blocks < room)
  | _ => True

/-- It does so with one request after the other. -/
def AllFit (P : Platform) (room : ℕ) : Stock → List (Request Ω) → Prop
  | _, [] => True
  | k, r :: requests => r.Fits room k ∧ AllFit P room (r.restock P k) requests

section Heap

variable {P : Platform} {s s' : Sys Ω} {room room' : ℕ} {labels : List (Label Ω)}
  {requests : List (Request Ω)}

/-- The heap looks at the request. -/
theorem grants_iff (l : Label Ω) :
    Grants room s l ↔ ∀ r ∈ l.request, r.Fits room s.stock := by
  cases l with
  | other t c => cases c <;> simp [Grants, Label.request, ApiCall.request, Request.Fits, Sys.stock]
  | _ => simp [Grants, Label.request, Request.Fits]

/-- What a call makes of the stock. -/
theorem apiCall_stock (P : Platform) (pm : PmState Ω) (c : ApiCall Ω)
    (hfault : (apiCall P pm c).fault = none) :
    (⟨(apiCall P pm c).pm.handleCounter, (apiCall P pm c).pm.subAllocated.length⟩ : Stock) =
      c.request.restock P ⟨pm.handleCounter, pm.subAllocated.length⟩ := by
  have hset : ∀ on handle, (stepPmSetEnabled P pm on handle).pm.handleCounter = pm.handleCounter ∧
      (stepPmSetEnabled P pm on handle).pm.subAllocated = pm.subAllocated := by
    intro on handle
    unfold stepPmSetEnabled
    split
    · exact ⟨rfl, rfl⟩
    · split <;> exact ⟨rfl, rfl⟩
  cases c with
  | register node pri world =>
      simp only [apiCall, stepPmRegister, ApiCall.request, Request.restock] at hfault ⊢
      by_cases hfull : pm.handleCounter = P.nodeLimit
      · simp [hfull]
      · by_cases hover : P.nodeLimit < pm.handleCounter
        · simp [hfull, hover, Outcome.outOfBounds] at hfault
        · simp [hfull, hover, PmState.addRecord, PmState.fillRecord]
  | clear => rfl
  | enable handle =>
      obtain ⟨hcounter, hallocated⟩ := hset true handle
      exact congrArg₂ Stock.mk hcounter (congrArg List.length hallocated)
  | disable handle =>
      obtain ⟨hcounter, hallocated⟩ := hset false handle
      exact congrArg₂ Stock.mk hcounter (congrArg List.length hallocated)
  | subscribe handle cb userData block =>
      simp only [apiCall, stepPmSubscribeToNode, ApiCall.request, Request.restock] at hfault ⊢
      by_cases hgt : pm.handleCounter < handle
      · simp [hgt, Outcome.ret]
      · cases block with
        | none => simp [hgt, Outcome.ret]
        | some nc =>
            by_cases hover : P.nodeLimit ≤ handle
            · simp [hgt, hover, Outcome.outOfBounds] at hfault
            · simp [hgt, hover, Outcome.ret, Nat.le_of_not_lt hgt]

/-- **The step lemma of the stock.** -/
theorem sysStep_stock {l : Label Ω} (hstep : sysStep P s l = some s') (hfault : s'.fault = none) :
    s'.stock = l.request.elim s.stock (Request.restock P s.stock) := by
  obtain ⟨hnone, hmove⟩ := sysStep_move hstep
  cases hmove with
  | process _ _ _ _ => rfl
  | proc _ hmove =>
      have hsame := hmove.sameRegistry
      simp [Sys.stock, Label.request, hsame.handleCounter, hsame.subAllocated]
  | other t c _ _ _ => exact apiCall_stock P s.pm c hfault

/-- Along a run the heap answers as it is to if and only if it does so request by request. -/
theorem meets_grants_iff (hrun : run (sysStep P) s labels = some s') :
    Meets (sysStep P) (Grants room) s labels ↔
      AllFit P room s.stock (labels.filterMap Label.request) := by
  induction labels generalizing s with
  | nil => exact Iff.rfl
  | cons l labels ih =>
      obtain ⟨s₁, hs₁, hrun'⟩ := (run_cons_eq_some _).mp hrun
      have hrest : Meets (sysStep P) (Grants room) s₁ labels ↔
          AllFit P room (l.request.elim s.stock (Request.restock P s.stock))
            (labels.filterMap Label.request) := by
        by_cases hfault : s₁.fault = none
        · rw [ih hrun', sysStep_stock hs₁ hfault]
        · obtain ⟨rfl, rfl⟩ := run_of_fault_nil hfault hrun'
          exact Iff.rfl
      simp only [Meets, hs₁, Option.some_inj, forall_eq', hrest, grants_iff]
      cases hl : l.request with
      | none => simp [hl]
      | some r => simp [hl, AllFit]

theorem AllFit.mono {k : Stock} {requests requests' : List (Request Ω)}
    (h : AllFit P room k requests) (hpre : requests' <+: requests) :
    AllFit P room k requests' := by
  obtain ⟨post, rfl⟩ := hpre
  induction requests' generalizing k with
  | nil => trivial
  | cons r requests' ih => exact ⟨h.1, ih h.2⟩

/-- **Blocks in use may be counted out**: what matters is how many more there is room for. -/
theorem allFit_shift {k k' : Stock} (hhandles : k'.handles = k.handles)
    (hshift : ∀ m, k.blocks + m < room ↔ k'.blocks + m < room') :
    AllFit P room k requests ↔ AllFit P room' k' requests := by
  induction requests generalizing k k' with
  | nil => exact Iff.rfl
  | cons r requests ih =>
      cases r with
      | subscribe handle cb userData granted =>
          have hgranted : k.blocks < room ↔ k'.blocks < room' := hshift 0
          refine and_congr (by simp only [Request.Fits, hhandles, hgranted]) ?_
          by_cases htaken : handle ≤ k.handles ∧ granted
          · refine ih hhandles fun m => ?_
            have hnext := hshift (m + 1)
            simp only [Request.restock, hhandles, if_pos htaken]
            omega
          · refine ih hhandles fun m => ?_
            simp only [Request.restock, hhandles, if_neg htaken]
            exact hshift m
      | register node pri world =>
          exact and_congr Iff.rfl (ih (by simp [Request.restock, hhandles]) hshift)
      | clear => exact and_congr Iff.rfl (ih rfl hshift)
      | _ => exact and_congr Iff.rfl (ih hhandles hshift)

end Heap

/-! ### A clear -/

section Clear

variable {P : Platform} {s s' s₀ s₁ : Sys Ω} {b b' : Broker Ω} {room room' : ℕ}
  {requests : List (Request Ω)} {seen : List Call} {fault : Option UndefinedBehaviour}

theorem SameBroker.symm (h : SameBroker P b b') : SameBroker P b' b := by
  obtain ⟨cache, rfl, htable⟩ := h
  exact ⟨b.cache, rfl, fun hon => (htable hon).symm⟩

variable [Inhabited Ω]

/-- **What may be seen from one state may be seen from the other**, if nobody can tell their
brokers apart and the heap has room for as many more blocks. -/
theorem Seen.transfer (h : Seen P room s requests seen fault) (hq : Quiet P s b)
    (hq' : Quiet P s' b') (hsame : SameBroker P b b')
    (hhandles : s'.stock.handles = s.stock.handles)
    (hshift : ∀ m, s.stock.blocks + m < room ↔ s'.stock.blocks + m < room') :
    Seen P room' s' requests seen fault := by
  obtain ⟨labels, t, hrun, hserial, hgrants, hpre, hall, rfl, rfl, hend⟩ := h
  obtain ⟨r, heach, hr⟩ := hq.serves hrun hserial hend
  obtain ⟨r', heach', hends⟩ :=
    Carries.each (fun request _ => serves_carries request) _ _ _ _ hsame heach
  obtain ⟨labels', t', hrun', hserial', hpre', hall', htrace, hr'⟩ := hq'.realises heach'
  have hfault : t'.fault = t.fault ∧ (t'.proc = none ∨ t'.fault ≠ none) := by
    cases hends with
    | ok _ => exact ⟨hr'.fault.trans hr.fault.symm, Or.inl hr'.proc⟩
    | error u =>
        have hu : t'.fault = some u := hr'
        exact ⟨hu.trans hr.symm, Or.inr (by simp [hu])⟩
  -- the heap answers the requests that are made again as it did the first time
  have hfits := ((meets_grants_iff hrun).mp hgrants).mono hpre'
  have hgrants' : Meets (sysStep P) (Grants room') s' labels' := by
    rw [meets_grants_iff hrun', ← allFit_shift hhandles hshift]
    exact hfits
  refine ⟨labels', t', hrun', hserial', hgrants', (hpre'.map _).trans hpre, fun hnone => ?_,
    htrace, hfault.1, hfault.2⟩
  rw [hall' hnone]
  exact hall (hfault.1.symm.trans hnone)

/-- **`step_pm_clear` is a restart, but for the blocks it leaks.**  Whatever has gone before, in
whatever interleaving: behind a clear that is made while nothing is in flight the application
may see, with the same requests, what it may see of a system that has just been started and
whose heap has as much less room as there were blocks in use. -/
theorem clear_restarts {pre : List (Label Ω)} {t : Tid}
    (hpre : run (sysStep P) (Sys.init P) pre = some s₀) (hproc : s₀.proc = none)
    (hclear : sysStep P s₀ (.other t .clear) = some s₁) (room : ℕ)
    (requests : List (Request Ω)) (seen : List Call) (fault : Option UndefinedBehaviour) :
    Seen P room s₁ requests seen fault ↔
      Seen P (room - s₀.pm.subAllocated.length) (Sys.init P) requests seen fault := by
  obtain ⟨hnone, hmove⟩ := sysStep_move hclear
  obtain ⟨b, hb⟩ := (run_serviceable hpre).quiet hproc hnone
  obtain ⟨r, hr, hquiet⟩ := hb.call hclear
  obtain rfl : r = .ok ⟨[], if P.filterCache then stepCacheClear P b.cache else b.cache⟩ :=
    (Prod.mk.inj hr).2.symm
  have hfresh : SameBroker P
      ⟨[], if P.filterCache then stepCacheClear P b.cache else b.cache⟩
      (Broker.init P : Broker Ω) := by
    refine ⟨.init P, rfl, fun hon => ?_⟩
    simp only [hon, if_true]
    rfl
  have hstock : s₁.stock = ⟨0, s₀.pm.subAllocated.length⟩ := by
    cases hmove with
    | other _ _ _ _ _ => rfl
  have hinit : (Sys.init P : Sys Ω).stock = ⟨0, 0⟩ := rfl
  refine ⟨fun h => h.transfer hquiet (quiet_init P) hfresh (by rw [hstock, hinit]) fun m => ?_,
    fun h => h.transfer (quiet_init P) hquiet hfresh.symm (by rw [hstock, hinit]) fun m => ?_⟩
  · simp only [hstock, hinit]
    omega
  · simp only [hstock, hinit]
    omega

/-- A chain is registered once more, and subscribed to three times; then a measurement is
dispatched. -/
def subscribesThrice : List (Label Unit) :=
  let cb : FnPtr (NodeChainCompletedCallback Unit) := ⟨300, fun _ mes _ _ => mes⟩
  [.other 1 (.register workingChain 2 fun _ => ()), .other 1 (.subscribe 0 (some cb) 1 (some 6)),
    .other 1 (.subscribe 0 (some cb) 2 (some 7)), .other 1 (.subscribe 0 (some cb) 3 none),
    .process 64 ⟨⟨0#32, 0#32, 0#32⟩, []⟩ false] ++
    List.replicate 13 (.proc ⟨(), (), 1, 0#32⟩)

/-- What is seen of it where the heap has room for two. -/
def twoOfThree : List Call :=
  [.answered 0 (some 0), .answered 0 none, .answered 0 none, .answered negEnomem none,
    .handler .exec 100 64 0 0 0, .subscriber 300 64 0 1, .subscriber 300 64 0 2, .returned 0]

/-- The heap has room for three, of which one block is lost: behind the clear the chain is
given the first handle, its former subscriber is not called, and the third subscription is
refused; as right after start-up, with room for two. -/
theorem clear_restarts_less_one :
    ∃ s₀ s₁, run (sysStep Platform.tests) (Sys.init Platform.tests) servedOnce = some s₀ ∧
      sysStep Platform.tests s₀ (.other 1 .clear) = some s₁ ∧
      s₀.pm.subAllocated.length = 1 ∧
      Seen Platform.tests 3 s₁ ((subscribesThrice.filterMap Label.request).map Request.made)
        twoOfThree none ∧
      Seen Platform.tests 2 (Sys.init Platform.tests)
        ((subscribesThrice.filterMap Label.request).map Request.made) twoOfThree none := by
  obtain ⟨s₀, s₁, s, hpre, hproc, hclear, hblocks, hpost, hserial, hgrants, htrace, hfault, hend⟩ :
      ∃ s₀ s₁ s, run (sysStep Platform.tests) (Sys.init Platform.tests) servedOnce = some s₀ ∧
        s₀.proc = none ∧ sysStep Platform.tests s₀ (.other 1 .clear) = some s₁ ∧
        s₀.pm.subAllocated.length = 1 ∧
        run (sysStep Platform.tests) s₁ subscribesThrice = some s ∧
        Meets (sysStep Platform.tests) Serial s₁ subscribesThrice ∧
        Meets (sysStep Platform.tests) (Grants 3) s₁ subscribesThrice ∧
        trace (sysStep Platform.tests) (observe Platform.tests) s₁ subscribesThrice = twoOfThree ∧
        s.fault = none ∧ s.proc = none :=
    ⟨_, _, _, rfl, rfl, rfl, rfl, rfl, by decide, by decide, by decide, rfl, rfl⟩
  have hseen : Seen Platform.tests 3 s₁
      ((subscribesThrice.filterMap Label.request).map Request.made) twoOfThree none :=
    ⟨subscribesThrice, s, hpost, hserial, hgrants, List.prefix_rfl, fun _ => rfl, htrace, hfault,
      Or.inl hend⟩
  refine ⟨s₀, s₁, hpre, hclear, hblocks, hseen, ?_⟩
  have hfresh := (clear_restarts hpre hproc hclear 3 _ _ _).mp hseen
  rwa [hblocks] at hfresh

end Clear

end StepPipeline
