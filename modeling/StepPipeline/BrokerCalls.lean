import StepPipeline.Broker

/-!
# The calls of the registry interface answer as the broker does

The statics of the processor manager implement a broker, and every call of the interface
does to the statics what the request does to the broker, with the same return code, the
same handle and the same callbacks called.

* `Mirrors` and `Implements` — **the statics implement a broker**: the record at each
  place of the list says what the registration at that place says;
* `ApiCall.request` — the request a call makes; which block `k_heap_alloc` answers with
  does not matter;
* `apiCall_implements` — the calls, one by one.

## The simulation relation

`Mirrors` relates one record to one registration, and `List.Forall₂` carries it along the list, so
that the order is compared without a word on links.  A change to one record is a change at one
place; the rest of the list is passed over by `Mirrors.of_record`.  Slots that hold no
registration have no counterpart in a broker, and what a call writes into one of them is without
effect there: a broker alters the registration with the handle, if there is one.
-/

namespace StepPipeline

open IntrusiveList PriorityOrder

variable {Ω : Type}

/-! ### The statics implement a broker -/

/-- The record at slot `i`, with the blocks `blocks` attached to it, says what the
registration `e` says. -/
structure Mirrors (pm : PmState Ω) (blocks : List ℕ) (i : ℕ) (e : BrokerEntry Ω) : Prop where
  handle : e.handle = i
  node : (pm.nodes i).node = some e.chain
  priority : (pm.nodes i).priority = e.priority
  enabled : (pm.nodes i).enabled = e.enabled
  subscriptions : blocks.map (pm.subscriptionIn i) = e.subscriptions

/-- …at every place of the list `l`.  The representation results of the registry and of the
subscribers are part of it, so that this is the only invariant a client of the module needs. -/
structure ImplementsAt (P : Platform) (pm : PmState Ω) (b : Broker Ω)
    (regs : List (StepNodeChain Ω × ℕ)) (l : List ℕ) (subsOf : ℕ → List ℕ) : Prop where
  registry : Represents P pm regs l
  subscribers : SubsRepresented pm subsOf
  entries : List.Forall₂ (fun i e => Mirrors pm (subsOf i) i e) l b.entries
  cache : b.cache = pm.cache

/-- **The statics implement the broker.** -/
def Implements (P : Platform) (pm : PmState Ω) (b : Broker Ω) : Prop :=
  ∃ regs l subsOf, ImplementsAt P pm b regs l subsOf

section Implements

variable {P : Platform} {pm pm' : PmState Ω} {b b' : Broker Ω} {i : ℕ} {e : BrokerEntry Ω}
  {blocks : List ℕ} {regs : List (StepNodeChain Ω × ℕ)} {l : List ℕ} {subsOf : ℕ → List ℕ}

theorem implements_init (P : Platform) :
    Implements P (PmState.init P : PmState Ω) (Broker.init P) :=
  ⟨[], [], _, represents_init P, subsRepresented_init P, List.Forall₂.nil, rfl⟩

/-- What the registry and the subscriptions do not notice leaves the mirror alone. -/
theorem Mirrors.of_same (h : Mirrors pm blocks i e)
    (hnode : (pm'.nodes i).node = (pm.nodes i).node)
    (hpriority : (pm'.nodes i).priority = (pm.nodes i).priority)
    (henabled : (pm'.nodes i).enabled = (pm.nodes i).enabled)
    (hsubs : ∀ b ∈ blocks, pm'.subs b = pm.subs b) : Mirrors pm' blocks i e where
  handle := h.handle
  node := hnode.trans h.node
  priority := hpriority.trans h.priority
  enabled := henabled.trans h.enabled
  subscriptions := by
    rw [← h.subscriptions]
    refine List.map_congr_left fun x hx => ?_
    rw [PmState.subscriptionIn, PmState.subscriptionIn, hsubs x hx]

/-- …and what leaves the record alone. -/
theorem Mirrors.of_record (h : Mirrors pm blocks i e) (hrecord : pm'.nodes i = pm.nodes i)
    (hsubs : ∀ b ∈ blocks, pm'.subs b = pm.subs b) : Mirrors pm' blocks i e :=
  h.of_same (by rw [hrecord]) (by rw [hrecord]) (by rw [hrecord]) hsubs

/-- There are as many registrations as handles have been given out. -/
theorem ImplementsAt.length_eq (h : ImplementsAt P pm b regs l subsOf) :
    b.entries.length = pm.handleCounter := by
  rw [← h.entries.length_eq, h.registry.length_listed, h.registry.counter_eq]

/-- **The instrumentation and the cache** are all that a dispatch changes. -/
theorem ImplementsAt.of_sameRegistry (h : ImplementsAt P pm b regs l subsOf)
    (hsame : pm.SameRegistry pm') :
    ImplementsAt P pm' { b with cache := pm'.cache } regs l subsOf where
  registry := h.registry.of_sameRegistry hsame
  subscribers := h.subscribers.of_sameRegistry hsame
  entries := h.entries.imp fun i e hm =>
    hm.of_same (hsame.node i) (hsame.priority i) (hsame.enabled i) fun x _ => by rw [hsame.subs]
  cache := rfl

end Implements

/-! ### Requests -/

/-- The request a call makes of the broker. -/
def ApiCall.request : ApiCall Ω → Request Ω
  | .register node pri world => .register node pri world
  | .clear => .clear
  | .enable handle => .enable handle
  | .disable handle => .disable handle
  | .subscribe handle cb userData block => .subscribe handle cb userData block.isSome

/-- What the application sees of a call: the callbacks it made, and what it returned. -/
def Outcome.calls (o : Outcome Ω) : List Call :=
  StepPipeline.calls o.events ++ if o.fault = none then [.answered o.rc o.handle] else []

/-- **A call has gone** as the broker says: the same was seen, and either the statics implement
the broker as it is now, or both have left defined behaviour in the same way. -/
def Outcome.Answers (P : Platform) (o : Outcome Ω)
    (answer : List Call × Except UndefinedBehaviour (Broker Ω)) : Prop :=
  o.calls = answer.1 ∧
    match answer.2 with
    | .ok b => o.fault = none ∧ Implements P o.pm b
    | .error u => o.fault = some u

section Answers

variable {P : Platform} {pm : PmState Ω} {b : Broker Ω} {regs : List (StepNodeChain Ω × ℕ)}
  {l : List ℕ} {subsOf : ℕ → List ℕ}

/-- **A refusal** changes nothing. -/
theorem answers_ret (h : Implements P pm b) (rc : ℤ) :
    (Outcome.ret pm rc).Answers P ([.answered rc none], .ok b) :=
  ⟨rfl, rfl, h⟩

/-- **A newcomer is entered** where the broker enters it. -/
theorem ImplementsAt.add (h : ImplementsAt P pm b regs l subsOf)
    (hlimit : regs.length < P.nodeLimit) (node : StepNodeChain Ω) (pri : ℕ) :
    Implements P (pm.addRecord P node pri) (b.add node pri) := by
  obtain ⟨l', -, hrep⟩ := h.registry.add hlimit node pri
  have hplaces := h.registry.linkRecord_places node pri
  have hl' := hrep.holds.path.unique hplaces.holds.path
  subst hl'
  have hne : ∀ i ∈ l, i ≠ pm.handleCounter := by
    intro i hi
    have hlt := (h.registry.mem_iff i).mp hi
    rw [h.registry.counter_eq]
    exact hlt.ne
  have hold : List.Forall₂ (fun i e => Mirrors (pm.addRecord P node pri)
      (Function.update subsOf pm.handleCounter [] i) i e) l b.entries := by
    have hboth := (List.forall₂_and_left l b.entries).mpr ⟨hne, h.entries⟩
    refine hboth.imp fun i e ⟨hi, hm⟩ => ?_
    rw [Function.update_of_ne hi]
    exact hm.of_record (Function.update_of_ne hi _ _) fun _ _ => rfl
  have hprio : List.Forall₂
      (fun i e => (pm.fillRecord node pri).priorityOf i = e.priority) l b.entries :=
    hold.imp fun i e hm => hm.priority
  have hnew : Mirrors (pm.addRecord P node pri)
      (Function.update subsOf pm.handleCounter [] pm.handleCounter) pm.handleCounter
      ⟨b.entries.length, node, pri, true, []⟩ := by
    rw [Function.update_self]
    refine ⟨h.length_eq, ?_, ?_, ?_, rfl⟩ <;>
      simp [PmState.addRecord, PmState.fillRecord, newRecord]
  refine ⟨_, _, _, hrep, h.subscribers.add node pri, ?_, h.cache⟩
  exact List.rel_append (forall₂_ahead hold hprio pri)
    (List.Forall₂.cons hnew (forall₂_behind hold hprio pri))

/-- Writing an enabled flag, of a slot that is registered or not. -/
theorem ImplementsAt.setEnabled (h : ImplementsAt P pm b regs l subsOf) (on : Bool)
    (handle : ℕ) :
    Implements P
      { pm with nodes :=
          Function.update pm.nodes handle { pm.nodes handle with enabled := on } }
      (b.alter handle fun e => { e with enabled := on }) := by
  have hnodes : ∀ i, Function.update pm.nodes handle { pm.nodes handle with enabled := on } i =
      { pm.nodes i with
        enabled := (Function.update pm.nodes handle
          { pm.nodes handle with enabled := on } i).enabled } := by
    intro i
    by_cases hi : i = handle
    · subst hi
      rw [Function.update_self]
    · rw [Function.update_of_ne hi]
  refine ⟨regs, l, subsOf, h.registry.of_same rfl rfl rfl fun i => ?_,
    h.subscribers.setEnabled hnodes, ?_, h.cache⟩
  · dsimp only
    rw [hnodes i]
    exact ⟨rfl, rfl, rfl⟩
  · rw [Broker.alter, List.forall₂_map_right_iff]
    refine h.entries.imp fun i e hm => ?_
    by_cases hi : i = handle
    · subst hi
      rw [if_pos hm.handle]
      refine ⟨hm.handle, ?_, ?_, ?_, hm.subscriptions⟩
      · simpa using hm.node
      · simpa using hm.priority
      · simp
    · rw [if_neg (hm.handle ▸ hi)]
      exact hm.of_record (Function.update_of_ne hi _ _) fun _ _ => rfl

/-- A call that takes a handle. -/
theorem ImplementsAt.answers_setEnabled (h : ImplementsAt P pm b regs l subsOf) (on : Bool)
    (handle : ℕ) :
    (stepPmSetEnabled P pm on handle).Answers P
      (b.answerHandle P handle (b.alter handle fun e => { e with enabled := on })) := by
  unfold stepPmSetEnabled Broker.answerHandle
  rw [h.length_eq]
  split
  · exact answers_ret ⟨regs, l, subsOf, h⟩ negEinval
  · split
    · exact ⟨rfl, rfl⟩
    · exact answers_ret (h.setEnabled on handle) 0

/-- **A subscription** is noted at the registration that has the handle, if there is one. -/
theorem ImplementsAt.subscribe (h : ImplementsAt P pm b regs l subsOf) (handle nc : ℕ)
    (cb : Option (FnPtr (NodeChainCompletedCallback Ω))) (userData : ℕ)
    (hfresh : nc ∉ pm.subAllocated) :
    Implements P
      { pm with
        subs := Function.update pm.subs nc ⟨cb, userData, pm.registrationAt handle⟩
        subSnode := (P.slist.append pm.subSnode (pm.nodes handle).subCallbacks nc).1
        subAllocated := nc :: pm.subAllocated
        nodes := Function.update pm.nodes handle
          { pm.nodes handle with
            subCallbacks :=
              (P.slist.append pm.subSnode (pm.nodes handle).subCallbacks nc).2 } }
      (b.alter handle fun e =>
        { e with subscriptions := e.subscriptions ++ [⟨handle, cb, userData⟩] }) := by
  have hnew : nc ∉ subsOf handle := fun hmem => hfresh (h.subscribers.allocated handle nc hmem)
  have hold : ∀ i, ∀ x ∈ subsOf i,
      Function.update pm.subs nc ⟨cb, userData, pm.registrationAt handle⟩ x = pm.subs x := by
    intro i x hx
    refine Function.update_of_ne (fun heq => hfresh ?_) _ _
    exact heq ▸ h.subscribers.allocated i x hx
  refine ⟨regs, l, Function.update subsOf handle (subsOf handle ++ [nc]),
    h.registry.of_same rfl rfl rfl fun i => ?_,
    h.subscribers.append cb userData hfresh
      (P.slist.append_places (h.subscribers.holds handle) hnew), ?_, h.cache⟩
  · by_cases hi : i = handle
    · subst hi
      simp
    · simp [hi]
  · rw [Broker.alter, List.forall₂_map_right_iff]
    refine h.entries.imp fun i e hm => ?_
    by_cases hi : i = handle
    · subst hi
      rw [if_pos hm.handle]
      refine ⟨hm.handle, ?_, ?_, ?_, ?_⟩
      · simpa using hm.node
      · simpa using hm.priority
      · simpa using hm.enabled
      · rw [Function.update_self, List.map_append, ← hm.subscriptions]
        congr 1
        · refine List.map_congr_left fun x hx => ?_
          simp only [PmState.subscriptionIn, hold i x hx]
        · simp [PmState.subscriptionIn]
    · rw [if_neg (hm.handle ▸ hi), Function.update_of_ne hi]
      exact hm.of_record (Function.update_of_ne hi _ _) (hold i)

/-- **The calls answer as the broker does.** The one hypothesis on the call is that the heap does
not hand out a block that is in use. -/
theorem apiCall_implements (h : Implements P pm b) {c : ApiCall Ω}
    (hheap : c.heapOk pm = true) : (apiCall P pm c).Answers P (b.answer P c.request) := by
  obtain ⟨regs, l, subsOf, hat⟩ := h
  have hlen := hat.length_eq
  cases c with
  | register node pri world =>
      simp only [apiCall, stepPmRegister, ApiCall.request, Broker.answer, hlen]
      by_cases hfull : pm.handleCounter = P.nodeLimit
      · rw [if_pos hfull, if_pos hfull]
        exact ⟨rfl, rfl, ⟨regs, l, subsOf, hat⟩⟩
      · have hle := hat.registry.counter_le
        have hlimit : regs.length < P.nodeLimit := by
          rw [← hat.registry.counter_eq]
          omega
        rw [if_neg hfull, if_neg hfull, if_neg (not_lt.mpr hle)]
        cases hinit : (initLoop pm.handleCounter world 0 (node.head :: node.rest) 0 []).fault with
        | some u => exact ⟨by simp [Outcome.calls], rfl⟩
        | none => exact ⟨by simp [Outcome.calls], rfl, hat.add hlimit node pri⟩
  | clear =>
      refine ⟨rfl, rfl, [], [], _, Represents.clear P pm,
        hat.subscribers.clear hat.registry.counter_le, List.Forall₂.nil, ?_⟩
      rw [hat.cache]
      rfl
  | enable handle => exact hat.answers_setEnabled true handle
  | disable handle => exact hat.answers_setEnabled false handle
  | subscribe handle cb userData block =>
      simp only [apiCall, stepPmSubscribeToNode, ApiCall.request, Broker.answer, hlen]
      by_cases hgt : pm.handleCounter < handle
      · rw [if_pos hgt, if_pos hgt]
        exact answers_ret ⟨regs, l, subsOf, hat⟩ negEinval
      · rw [if_neg hgt, if_neg hgt]
        cases block with
        | none => exact answers_ret ⟨regs, l, subsOf, hat⟩ negEnomem
        | some nc =>
            have hfresh : nc ∉ pm.subAllocated := by simpa [ApiCall.heapOk] using hheap
            simp only [Option.isSome_some, not_true_eq_false, if_false, Broker.answerHandle, hlen,
              if_neg hgt]
            split
            · exact ⟨rfl, rfl⟩
            · exact answers_ret (hat.subscribe handle nc cb userData hfresh) 0

end Answers

end StepPipeline
