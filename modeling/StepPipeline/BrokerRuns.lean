import StepPipeline.BrokerDispatch

/-!
# The processor manager is a broker

The statics, the work-queue thread and the calls of the registry interface on the one
side, the broker on the other: what the application can see of the first is what the
second does, as long as nobody calls while a measurement is being dispatched.

* `Label.request` and `observe` — what the application asks for, and what it sees;
* `Serial` — the runs in which a dispatch is left alone;
* `Quiet` — nothing is in flight, and the statics implement the broker;
* `serial_run_served` — **every serial run is served as the broker serves its requests**;
* `broker_realised` — **everything the broker may do** is done in some serial run.

## Which runs, and why only these

While a chain runs the mutex is free, and a call that comes in then may change what the rest of
the dispatch does; a broker, which serves a request from beginning to end, has no such behaviour.
So the comparison is made for serial runs, in which nobody calls in the middle of a dispatch,
callbacks included.  What holds under interference is in `DispatchOrder`, `SubscriberDelivery`,
`ChainTrace` and the other modules about `Sys`.

A serial run may end in the middle of nothing only: either no dispatch is in flight, or defined
behaviour was left.  Both directions are shown, so the broker neither forbids anything the system
does nor allows anything it cannot do.
-/

namespace StepPipeline

open LabelledRun Behaviour

variable {Ω : Type}

/-- What the application asks for. -/
def Label.request : Label Ω → Option (Request Ω)
  | .process mesAddr mes free => some (.process mesAddr mes free)
  | .proc _ => none
  | .other _ c => some c.request

/-- What the application sees of a step.  For a step of the thread it is what the step appends to
the log, read off the log; for a call it is its callbacks and what it returns. -/
def observe (P : Platform) (s : Sys Ω) : Label Ω → List Call
  | .process _ _ _ => []
  | .proc inp =>
      match sysStep P s (.proc inp) with
      | none => []
      | some s' => calls (s'.log.drop s.log.length)
  | .other _ c => (apiCall P s.pm c).calls

/-- **Nobody calls while a measurement is being dispatched.** -/
def Serial (s : Sys Ω) : Label Ω → Prop
  | .proc _ => True
  | .process _ _ _ | .other _ _ => s.proc = none

instance Serial.decidable (s : Sys Ω) : ∀ l, Decidable (Serial s l)
  | .proc _ => isTrue trivial
  | .process _ _ _ | .other _ _ => inferInstanceAs (Decidable (s.proc = none))

/-- **Nothing is in flight**, and the statics implement the broker.  This is the relation between
the two systems; it holds between requests and not in the middle of one. -/
structure Quiet (P : Platform) (s : Sys Ω) (b : Broker Ω) : Prop where
  proc : s.proc = none
  fault : s.fault = none
  lock : LockDiscipline s
  implements : Implements P s.pm b

/-- The system has come to where the broker has.  When that is undefined behaviour, nothing is
said of the state. -/
def Settled (P : Platform) (s : Sys Ω) : Except UndefinedBehaviour (Broker Ω) → Prop
  | .ok b => Quiet P s b
  | .error u => s.fault = some u

section Serial

variable {P : Platform} {s s' : Sys Ω} {b : Broker Ω}

theorem quiet_init (P : Platform) : Quiet P (Sys.init P : Sys Ω) (Broker.init P) :=
  ⟨rfl, rfl, rfl, implements_init P⟩

/-! ### Calls -/

/-- Every request but the dispatch of a measurement has the one answer. -/
theorem serves_call {c : ApiCall Ω} {t : List Call} {r : Except UndefinedBehaviour (Broker Ω)} :
    Broker.Serves P c.request b t r ↔ b.answer P c.request = (t, r) := by
  cases c <;> exact Iff.rfl

/-- **A call is a request answered.** -/
theorem Quiet.call (h : Quiet P s b) {t : Tid} {c : ApiCall Ω}
    (hstep : sysStep P s (.other t c) = some s') :
    ∃ r, b.answer P c.request = ((apiCall P s.pm c).calls, r) ∧ Settled P s' r := by
  have hlock := sysStep_lockDiscipline h.lock hstep
  have hmove := (sysStep_move hstep).2
  cases hmove with
  | other _ _ _ _ hheap =>
      obtain ⟨hcalls, hstate⟩ := apiCall_implements h.implements hheap
      refine ⟨(b.answer P c.request).2, Prod.ext hcalls.symm rfl, ?_⟩
      cases hr : (b.answer P c.request).2 with
      | error u =>
          rw [hr] at hstate
          exact hstate
      | ok b' =>
          rw [hr] at hstate
          exact ⟨h.proc, hstate.1, hlock, hstate.2⟩

/-- Every request but the dispatch of a measurement is some call, with a block that is free
if the memory is granted. -/
theorem exists_call (pm : PmState Ω) (request : Request Ω) :
    (∃ mesAddr mes free, request = .process mesAddr mes free) ∨
      ∃ c : ApiCall Ω, c.request = request ∧ c.heapOk pm = true := by
  cases request with
  | process mesAddr mes free => exact Or.inl ⟨mesAddr, mes, free, rfl⟩
  | register node pri world => exact Or.inr ⟨.register node pri world, rfl, rfl⟩
  | clear => exact Or.inr ⟨.clear, rfl, rfl⟩
  | enable handle => exact Or.inr ⟨.enable handle, rfl, rfl⟩
  | disable handle => exact Or.inr ⟨.disable handle, rfl, rfl⟩
  | subscribe handle cb userData granted =>
      cases granted with
      | false => exact Or.inr ⟨.subscribe handle cb userData none, rfl, rfl⟩
      | true =>
          obtain ⟨nc, hnc⟩ := Infinite.exists_notMem_finset pm.subAllocated.toFinset
          refine Or.inr ⟨.subscribe handle cb userData (some nc), rfl, ?_⟩
          simpa [ApiCall.heapOk] using hnc

/-! ### Dispatches -/

/-- The system that has just been handed a measurement. -/
def Sys.handed (s : Sys Ω) (mesAddr : ℕ) (mes : StepMeasurement) (free : Bool) : Sys Ω :=
  { s with proc := some (.start mesAddr mes free) }

theorem Quiet.process (h : Quiet P s b) (mesAddr : ℕ) (mes : StepMeasurement) (free : Bool) :
    sysStep P s (.process mesAddr mes free) = some (s.handed mesAddr mes free) ∧
      Handed s.pm mesAddr free (s.handed mesAddr mes free) ⟨mes, 0, b.cache⟩ := by
  have hstep : sysStep P s (.process mesAddr mes free) = some (s.handed mesAddr mes free) := by
    simp [sysStep, h.fault, h.proc, Sys.handed]
  obtain ⟨regs, l, subsOf, hat⟩ := h.implements
  exact ⟨hstep, _, ⟨rfl, h.fault, sysStep_lockDiscipline h.lock hstep, .refl s.pm, rfl, rfl, rfl,
    rfl, hat.cache.symm⟩, rfl⟩

/-- A dispatch that is over leaves the system quiet again. -/
theorem Quiet.returned (h : Quiet P s b) {d : Delivery} (hreturned : Returned s.pm s' d) :
    Quiet P s' { b with cache := d.cache } := by
  obtain ⟨regs, l, subsOf, hat⟩ := h.implements
  have hat' := hat.of_sameRegistry hreturned.registry
  rw [hreturned.cache] at hat'
  exact ⟨hreturned.proc, hreturned.fault, hreturned.lock, regs, l, subsOf, hat'⟩

/-- …however it has ended. -/
theorem Quiet.ended (h : Quiet P s b) {s₁ : Sys Ω} {t : List Call}
    {r : Except UndefinedBehaviour Delivery}
    (hended : (dispatcher P).Ended s₁ s' t (Returned s.pm) r) :
    Settled P s' (r.map fun d => { b with cache := d.cache }) := by
  cases r with
  | ok d => exact h.returned hended.2
  | error u => exact hended.2

/-- What is seen of the steps of the thread is what they log. -/
theorem trace_observe_proc {ls : List (Label Ω)} (hmine : ∀ l ∈ ls, (dispatcher P).mine l)
    (hrun : run (sysStep P) s ls = some s') :
    calls s'.log = calls s.log ++ trace (sysStep P) (observe P) s ls := by
  induction ls generalizing s with
  | nil =>
      cases hrun
      exact (List.append_nil _).symm
  | cons l ls ih =>
      obtain ⟨u, hu, hrun'⟩ := (run_cons_eq_some _).mp hrun
      obtain ⟨inp, rfl⟩ := hmine l (by simp)
      obtain ⟨new, hnew⟩ := sysStep_log hu
      have hseen : observe P s (.proc inp) = calls new := by
        simp only [observe, hu, ← hnew, List.drop_left]
      rw [ih (fun l hl => hmine l (List.mem_cons_of_mem _ hl)) hrun', trace_cons hu, hseen, ← hnew,
        calls_append, List.append_assoc]

/-- The thread asks for nothing. -/
theorem requests_proc {ls : List (Label Ω)} (hmine : ∀ l ∈ ls, (dispatcher P).mine l) :
    ls.filterMap Label.request = [] := by
  rw [List.filterMap_eq_nil_iff]
  intro l hl
  obtain ⟨inp, rfl⟩ := hmine l hl
  rfl

/-- The thread is left alone while a measurement is in flight. -/
theorem Serial.undisturbed {l : Label Ω} (h : Serial s l) : (dispatcher P).Undisturbed s l := by
  have hidle : s.proc = none → (dispatcher P).Idle s := by
    rintro hproc l ⟨inp, rfl⟩
    simp [dispatcher, sysStep, hproc]
  cases l with
  | proc inp => exact Or.inl ⟨inp, rfl⟩
  | process _ _ _ => exact Or.inr (hidle h)
  | other _ _ => exact Or.inr (hidle h)

theorem idle_of_settled (h : s.proc = none ∨ s.fault ≠ none) : (dispatcher P).Idle s := by
  rintro l ⟨inp, rfl⟩
  rcases h with h | h <;> simp [dispatcher, sysStep, h]

/-! ### Runs -/

/-- A system that has left defined behaviour has come to its end. -/
theorem run_of_fault_nil {ls : List (Label Ω)} (hfault : s.fault ≠ none)
    (hrun : run (sysStep P) s ls = some s') : ls = [] ∧ s' = s := by
  refine ⟨?_, run_of_fault hfault hrun⟩
  cases ls with
  | nil => rfl
  | cons l ls =>
      obtain ⟨s₁, hs₁, -⟩ := (run_cons_eq_some _).mp hrun
      exact absurd (sysStep_move hs₁).1 hfault

/-- **A request, and then the others**, where a request is served by the labels `pre`. -/
theorem serves_cons {pre post : List (Label Ω)} {request : Request Ω} {s₁ : Sys Ω}
    {r : Except UndefinedBehaviour (Broker Ω)} (hpre : run (sysStep P) s pre = some s₁)
    (hpost : run (sysStep P) s₁ post = some s')
    (hserves : Broker.Serves P request b (trace (sysStep P) (observe P) s pre) r)
    (hrequest : pre.filterMap Label.request = [request]) (hsettled : Settled P s₁ r)
    (hrest : ∀ b', Quiet P s₁ b' → ∃ r, Each (Broker.Serves P) (post.filterMap Label.request) b'
      (trace (sysStep P) (observe P) s₁ post) r ∧ Settled P s' r) :
    ∃ r, Each (Broker.Serves P) ((pre ++ post).filterMap Label.request) b
      (trace (sysStep P) (observe P) s (pre ++ post)) r ∧ Settled P s' r := by
  rw [List.filterMap_append, hrequest, trace_append post hpre]
  cases r with
  | error u =>
      have hfault : s₁.fault ≠ none := by simp [show s₁.fault = some u from hsettled]
      obtain ⟨rfl, rfl⟩ := run_of_fault_nil hfault hpost
      rw [trace, List.append_nil]
      exact ⟨.error u, .stop hserves, hsettled⟩
  | ok b' =>
      obtain ⟨r, heach, hr⟩ := hrest b' hsettled
      exact ⟨r, .cons hserves heach, hr⟩

variable [Inhabited Ω]

/-- **A dispatch in a serial run.** -/
theorem Quiet.dispatch {ls : List (Label Ω)} (h : Quiet P s b) (mesAddr : ℕ)
    (mes : StepMeasurement) (free : Bool)
    (hrun : run (sysStep P) (s.handed mesAddr mes free) ls = some s')
    (hserial : Meets (sysStep P) Serial (s.handed mesAddr mes free) ls)
    (hend : s'.proc = none ∨ s'.fault ≠ none) :
    ∃ pre post s₁ r, ls = pre ++ post ∧
      run (sysStep P) s (.process mesAddr mes free :: pre) = some s₁ ∧
      run (sysStep P) s₁ post = some s' ∧
      (Label.process mesAddr mes free :: pre).filterMap Label.request =
        [.process mesAddr mes free] ∧
      Broker.Serves P (.process mesAddr mes free) b
        (trace (sysStep P) (observe P) s (.process mesAddr mes free :: pre)) r ∧
      Settled P s₁ r := by
  obtain ⟨hprocess, hhanded⟩ := h.process mesAddr mes free
  obtain ⟨pre, post, s₁, t, out, rfl, hmine, hpre, hruns, hended⟩ :=
    (plays_dispatch P h.implements).undisturbed (dispatcher_mine_default P) hhanded
      hrun (hserial.imp fun _ _ => Serial.undisturbed) (idle_of_settled hend)
  obtain ⟨s₂, hs₂, hpost⟩ := (run_append_eq_some _).mp hrun
  obtain rfl := Option.some.inj (hpre.symm.trans hs₂)
  have hseen : t = trace (sysStep P) (observe P) (s.handed mesAddr mes free) pre :=
    List.append_cancel_left (hended.1.symm.trans (trace_observe_proc hmine hpre))
  refine ⟨pre, post, s₁, _, rfl, ?_, hpost, ?_, ?_, h.ended hended⟩
  · rw [run_cons, hprocess]
    exact hpre
  · rw [List.filterMap_cons, requests_proc hmine]
    rfl
  · rw [trace_cons hprocess, ← hseen]
    exact ⟨out, hruns, rfl⟩

/-- **A quiet system serves** what is asked of it. -/
theorem Quiet.serves {ls : List (Label Ω)} (h : Quiet P s b)
    (hrun : run (sysStep P) s ls = some s') (hserial : Meets (sysStep P) Serial s ls)
    (hend : s'.proc = none ∨ s'.fault ≠ none) :
    ∃ r, Each (Broker.Serves P) (ls.filterMap Label.request) b
      (trace (sysStep P) (observe P) s ls) r ∧ Settled P s' r := by
  -- by the length, since a dispatch takes several labels at once
  induction hn : ls.length using Nat.strong_induction_on generalizing s b ls with
  | _ n ih =>
    cases ls with
    | nil =>
        cases hrun
        exact ⟨.ok b, .nil, h⟩
    | cons l ls =>
        obtain ⟨s₁, hs₁, hrun₁⟩ := (run_cons_eq_some _).mp hrun
        cases l with
        | proc inp => simp [sysStep, h.proc] at hs₁
        | other t c =>
            obtain ⟨r, hr, hsettled⟩ := h.call hs₁
            have hpre : run (sysStep P) s [.other t c] = some s₁ := by
              rw [run_cons, hs₁]
              rfl
            have hserves : Broker.Serves P c.request b
                (trace (sysStep P) (observe P) s [.other t c]) r := by
              rw [trace_cons hs₁, trace, List.append_nil]
              exact serves_call.mpr hr
            refine serves_cons hpre hrun₁ hserves rfl hsettled fun b' hb' => ?_
            exact ih ls.length (by simp [← hn]) hb' hrun₁ (hserial.2 s₁ hs₁) rfl
        | process mesAddr mes free =>
            obtain rfl := Option.some.inj (hs₁.symm.trans (h.process mesAddr mes free).1)
            obtain ⟨pre, post, s₂, r, rfl, hpre, hpost, hrequest, hserves, hsettled⟩ :=
              h.dispatch mesAddr mes free hrun₁ (hserial.2 _ hs₁) hend
            refine serves_cons hpre hpost hserves hrequest hsettled fun b' hb' => ?_
            have hlt : post.length < n := by
              simp only [← hn, List.length_cons, List.length_append]
              omega
            exact ih post.length hlt hb' hpost ((hserial.2 _ hs₁).after
              (by rw [run_cons, hs₁] at hpre; exact hpre)) rfl

/-! ### Everything the broker may do is done -/

/-- **What the broker may do with a request** is done with it. -/
theorem Quiet.realises_one (h : Quiet P s b) {request : Request Ω} {t : List Call}
    {r : Except UndefinedBehaviour (Broker Ω)} (hserves : Broker.Serves P request b t r) :
    ∃ pre s₁, run (sysStep P) s pre = some s₁ ∧ Meets (sysStep P) Serial s pre ∧
      pre.filterMap Label.request = [request] ∧ trace (sysStep P) (observe P) s pre = t ∧
      Settled P s₁ r := by
  rcases exists_call s.pm request with ⟨mesAddr, mes, free, rfl⟩ | ⟨c, rfl, hheap⟩
  · obtain ⟨out, hruns, rfl⟩ := hserves
    obtain ⟨hprocess, hhanded⟩ := h.process mesAddr mes free
    obtain ⟨labels, s₁, hmine, hrun, hended⟩ :=
      (plays_dispatch P h.implements).complete _ _ _ _ hhanded hruns
    refine ⟨.process mesAddr mes free :: labels, s₁, ?_, ⟨h.proc, ?_⟩, ?_, ?_, h.ended hended⟩
    · rw [run_cons, hprocess]
      exact hrun
    · rintro s₂ -
      refine meets_of_forall_mem fun l hl s => ?_
      obtain ⟨inp, rfl⟩ := hmine l hl
      trivial
    · rw [List.filterMap_cons, requests_proc hmine]
      rfl
    · rw [trace_cons hprocess]
      exact List.append_cancel_left ((trace_observe_proc hmine hrun).symm.trans hended.1)
  · have hfree : s.regAccess = .free := by
      have hlock := h.lock
      rwa [LockDiscipline, h.proc] at hlock
    have hstep : sysStep P s (.other 1 c) = some (s.afterCall (apiCall P s.pm c)) := by
      simp [sysStep, h.fault, hfree, hheap, KMutex.lock, workQueueTid]
    obtain ⟨r', hr', hsettled⟩ := h.call hstep
    obtain ⟨rfl, rfl⟩ := Prod.mk.inj ((serves_call.mp hserves).symm.trans hr')
    refine ⟨[.other 1 c], _, ?_, ⟨h.proc, fun _ _ => trivial⟩, rfl, ?_, hsettled⟩
    · rw [run_cons, hstep]
      rfl
    · rw [trace_cons hstep, trace, List.append_nil]
      rfl

/-- **What the broker may do with its requests** is done with them; where it leaves defined
behaviour, the requests behind are not made. -/
theorem Quiet.realises (h : Quiet P s b) {requests : List (Request Ω)} {t : List Call}
    {r : Except UndefinedBehaviour (Broker Ω)}
    (heach : Each (Broker.Serves P) requests b t r) :
    ∃ ls s', run (sysStep P) s ls = some s' ∧ Meets (sysStep P) Serial s ls ∧
      ls.filterMap Label.request <+: requests ∧
      (s'.fault = none → ls.filterMap Label.request = requests) ∧
      trace (sysStep P) (observe P) s ls = t ∧ Settled P s' r := by
  induction heach generalizing s with
  | nil => exact ⟨[], s, rfl, trivial, List.prefix_rfl, fun _ => rfl, rfl, h⟩
  | @stop request requests b t u hserves =>
      obtain ⟨pre, s₁, hpre, hserial, hrequest, htrace, hsettled⟩ := h.realises_one hserves
      refine ⟨pre, s₁, hpre, hserial, ?_, fun hnone => ?_, htrace, hsettled⟩
      · rw [hrequest]
        exact ⟨requests, rfl⟩
      · rw [show s₁.fault = some u from hsettled] at hnone
        cases hnone
  | @cons request requests b b' t t' r hserves _ ih =>
      obtain ⟨pre, s₁, hpre, hserial, hrequest, htrace, hsettled⟩ := h.realises_one hserves
      obtain ⟨ls, s', hrun, hserial', hprefix, hall, htrace', hsettled'⟩ := ih hsettled
      refine ⟨pre ++ ls, s', (run_append_eq_some _).mpr ⟨s₁, hpre, hrun⟩,
        hserial.append hpre hserial', ?_, fun hnone => ?_, ?_, hsettled'⟩
      · rw [List.filterMap_append, hrequest]
        exact (List.prefix_append_right_inj [request]).mpr hprefix
      · rw [List.filterMap_append, hrequest, hall hnone]
        rfl
      · rw [trace_append ls hpre, htrace, htrace']

/-! ### From the start -/

/-- **Every serial run is served as the broker serves its requests**: what the application
sees is what the broker does, and the system ends where the broker does. -/
theorem serial_run_served {ls : List (Label Ω)}
    (hrun : run (sysStep P) (Sys.init P) ls = some s)
    (hserial : Meets (sysStep P) Serial (Sys.init P) ls)
    (hend : s.proc = none ∨ s.fault ≠ none) :
    ∃ r, Each (Broker.Serves P) (ls.filterMap Label.request) (Broker.init P)
      (trace (sysStep P) (observe P) (Sys.init P) ls) r ∧ Settled P s r :=
  (quiet_init P).serves hrun hserial hend

/-- A chain is registered and subscribed to; a measurement is dispatched. -/
def servedOnce : List (Label Unit) :=
  let cb : FnPtr (NodeChainCompletedCallback Unit) := ⟨200, fun _ mes _ _ => mes⟩
  [.other 1 (.register workingChain 2 fun _ => ()), .other 1 (.subscribe 0 (some cb) 7 (some 5)),
    .process 64 ⟨⟨0#32, 0#32, 0#32⟩, []⟩ false] ++
    List.replicate 11 (.proc ⟨(), (), 1, 0#32⟩)

/-- What is seen of it. -/
theorem serial_run_served_once :
    ∃ s r, Each (Broker.Serves Platform.tests) (servedOnce.filterMap Label.request)
      (Broker.init Platform.tests)
      [.answered 0 (some 0), .answered 0 none, .handler .exec 100 64 0 0 0,
        .subscriber 200 64 0 7, .returned 0] r ∧ Settled Platform.tests s r := by
  obtain ⟨s, hrun, hproc⟩ : ∃ s,
      run (sysStep Platform.tests) (Sys.init Platform.tests) servedOnce = some s ∧
        s.proc = none := ⟨_, rfl, rfl⟩
  obtain ⟨r, heach, hsettled⟩ := serial_run_served hrun (by decide) (Or.inl hproc)
  exact ⟨s, r, heach, hsettled⟩

/-- **Everything the broker may do**, with any requests, is done in a serial run. -/
theorem broker_realised {requests : List (Request Ω)} {t : List Call}
    {r : Except UndefinedBehaviour (Broker Ω)}
    (heach : Each (Broker.Serves P) requests (Broker.init P) t r) :
    ∃ ls s, run (sysStep P) (Sys.init P) ls = some s ∧
      Meets (sysStep P) Serial (Sys.init P) ls ∧ ls.filterMap Label.request <+: requests ∧
      (s.fault = none → ls.filterMap Label.request = requests) ∧
      trace (sysStep P) (observe P) (Sys.init P) ls = t ∧ Settled P s r :=
  (quiet_init P).realises heach

/-- The broker registers the chain and dispatches a measurement to it; and so does some
run. -/
theorem broker_realised_once :
    ∃ ls s b, run (sysStep Platform.tests) (Sys.init Platform.tests : Sys Unit) ls = some s ∧
      trace (sysStep Platform.tests) (observe Platform.tests) (Sys.init Platform.tests) ls =
        [.answered 0 (some 0), .handler .exec 100 64 0 0 0, .returned 0] ∧
      Settled Platform.tests s (.ok b) := by
  let d : Delivery := ⟨⟨⟨0#32, 0#32, 0#32⟩, []⟩, 0, .init Platform.tests⟩
  let exec : Call := .handler .exec 100 64 0 0 0
  have hexec : HandlerRuns 64 0 workingChain.head 0 .exec d [exec] (.ok d) :=
    .done ⟨100, fun _ mes _ _ => (0, mes)⟩ rfl () d.mes rfl
  have hnode : NodeRuns 64 0 workingChain.head 0 d ([] ++ ([exec] ++ [])) (.ok d) :=
    Seq.go (.absent rfl) (Seq.go hexec (.absent rfl))
  have hchain : ChainRuns 64 0 0 [workingChain.head] d ([exec] ++ []) (.ok d) :=
    Each.cons hnode .nil
  have hentry : EntryRuns Platform.tests 64 ⟨0, workingChain, 2, true, []⟩ d
      (calls [] ++ ([exec] ++ [])) (.ok d) :=
    .accepted rfl ⟨(), (), 0, 0#32⟩ ⟨1, 0, d.mes, []⟩ d.cache rfl (by decide)
      (Seq.go hchain Each.nil)
  have hdispatch : DispatchRuns Platform.tests 64 false [⟨0, workingChain, 2, true, []⟩] d
      (([exec] ++ []) ++ [.returned 0]) (.ok d) :=
    Seq.go (Each.cons hentry .nil) ⟨rfl, rfl⟩
  have heach : Each (Broker.Serves Platform.tests)
      [.register workingChain 2 fun _ => (), .process 64 d.mes false]
      (Broker.init Platform.tests) ([.answered 0 (some 0)] ++ ([exec, .returned 0] ++ []))
      (.ok ⟨[⟨0, workingChain, 2, true, []⟩], .init Platform.tests⟩) :=
    Each.cons rfl (Each.cons ⟨_, hdispatch, rfl⟩ .nil)
  obtain ⟨ls, s, hrun, -, -, -, htrace, hsettled⟩ := broker_realised heach
  exact ⟨ls, s, _, hrun, htrace, hsettled⟩

end Serial

end StepPipeline
