import StepPipeline.ChainTrace

/-!
# Delivery to subscribers

When the last node of a chain is done, `step_pm_process` walks the callback blocks of the
record.  In a run without clears these blocks are the history of the subscriptions to the
handle, in order.

* `Subscription` and `subscriptionOf` — the subscriptions a run has granted, each to a
  handle that was registered at that time;
* `Recorded` — **the lists of blocks are that history**, handle by handle;
* `LoopAt` — where the subscriber loop stands in the list of its record, which other
  threads may extend meanwhile;
* `LoopRun.ends` — **the loop ends** as soon as the thread is left alone;
* `subscribers_delivered` — the callbacks called are those of the history, each once, in
  order and with its own user data, followed at most by some that were subscribed while
  the loop was running.

## Why the loop is followed block by block

The loop runs without the mutex and fetches the successor of a block before it calls the
callback of that block.  A subscription made meanwhile is linked in behind the last block,
so it is met if the loop has not fetched the end yet and missed if it has.  `LoopAt` says
exactly this of each program counter: the list splits at the block at hand, and a successor
that was fetched as the end of the list may have stopped being the end.  What is owed to
the history is not affected, since the list only grows behind it.

The loop itself calls no NULL pointer: it tests `cb`, and unlike the handlers of a node a
subscriber returns nothing that could fail.  So the only way for it not to come to its end
is that some other call leaves defined behaviour meanwhile, or that the list grows as fast
as the loop walks it; left alone it ends.
-/

namespace StepPipeline

open IntrusiveList LabelledRun

variable {Ω : Type}

/-! ### The history of subscriptions -/

/-- A granted subscription.  Subscriptions are remembered in the order in which they were granted,
for all handles together; the list of a handle is a part of that history. -/
structure Subscription (Ω : Type) where
  handle : ℕ
  cb : Option (FnPtr (NodeChainCompletedCallback Ω))
  userData : ℕ

/-- The subscription a step grants, if it is one to a registered handle. -/
def subscriptionOf (P : Platform) (s : Sys Ω) : Label Ω → List (Subscription Ω)
  | .other _ (.subscribe handle cb userData block) =>
      let o := apiCall P s.pm (.subscribe handle cb userData block)
      if o.rc = 0 ∧ o.fault = none ∧ handle < s.pm.handleCounter then
        [⟨handle, cb, userData⟩]
      else []
  | _ => []

/-- The subscriptions to one handle. -/
def subscriptionsTo (handle : ℕ) (history : List (Subscription Ω)) : List (Subscription Ω) :=
  history.filter fun x => x.handle = handle

/-- The registry is not cleared. -/
def Label.NoClear : Label Ω → Prop
  | .other _ c => c ≠ .clear
  | _ => True

/-- What a block of the list of a handle says. -/
def PmState.subscriptionIn (pm : PmState Ω) (handle b : ℕ) : Subscription Ω :=
  ⟨handle, (pm.subs b).cb, (pm.subs b).userData⟩

/-- **The lists of blocks are the history of subscriptions.** The list of a registered record,
read block by block, is what was subscribed to its handle, in that order; nothing is in a list
that was not granted. -/
structure Recorded (pm : PmState Ω) (subsOf : ℕ → List ℕ) (history : List (Subscription Ω)) :
    Prop where
  represented : SubsRepresented pm subsOf
  lists : ∀ h < pm.handleCounter,
    (subsOf h).map (pm.subscriptionIn h) = subscriptionsTo h history
  known : ∀ x ∈ history, x.handle < pm.handleCounter

section History

variable {P : Platform} {s s' : Sys Ω} {pm pm' : PmState Ω} {subsOf : ℕ → List ℕ}
  {history : List (Subscription Ω)}

theorem recorded_init (P : Platform) :
    Recorded (PmState.init P : PmState Ω) (fun _ => []) [] :=
  ⟨subsRepresented_init P, fun _ h => absurd h (Nat.not_lt_zero _), by simp⟩

/-- What neither the blocks nor the counter notice leaves the history recorded. -/
theorem Recorded.of_same (h : Recorded pm subsOf history) (hrep : SubsRepresented pm' subsOf)
    (hsubs : pm'.subs = pm.subs) (hcounter : pm'.handleCounter = pm.handleCounter) :
    Recorded pm' subsOf history := by
  refine ⟨hrep, fun i hi => ?_, fun x hx => hcounter ▸ h.known x hx⟩
  rw [← h.lists i (hcounter ▸ hi)]
  refine List.map_congr_left fun b _ => ?_
  rw [PmState.subscriptionIn, PmState.subscriptionIn, hsubs]

/-- A registration starts with no subscribers, and none have been recorded for its
handle. -/
theorem Recorded.add (h : Recorded pm subsOf history) (node : StepNodeChain Ω) (pri : ℕ) :
    Recorded (pm.addRecord P node pri) (Function.update subsOf pm.handleCounter [])
      history := by
  refine ⟨h.represented.add node pri, fun i hi => ?_, fun x hx =>
    (h.known x hx).trans (Nat.lt_succ_self _)⟩
  by_cases hnew : i = pm.handleCounter
  · subst hnew
    rw [Function.update_self, List.map_nil, subscriptionsTo, eq_comm, List.filter_eq_nil_iff]
    intro x hx
    simpa using (h.known x hx).ne
  · rw [Function.update_of_ne hnew]
    have hlt : i < pm.handleCounter + 1 := hi
    exact h.lists i (by omega)

/-- A block that is linked in records one more subscription, to its handle; to a slot that
is not registered yet, none. -/
theorem Recorded.subscribe (h : Recorded pm subsOf history) {handle nc : ℕ}
    (cb : Option (FnPtr (NodeChainCompletedCallback Ω))) (userData : ℕ)
    (hfresh : nc ∉ pm.subAllocated)
    (hrep : SubsRepresented pm' (Function.update subsOf handle (subsOf handle ++ [nc])))
    (hsubs : pm'.subs = Function.update pm.subs nc ⟨cb, userData, pm.registrationAt handle⟩)
    (hcounter : pm'.handleCounter = pm.handleCounter) :
    Recorded pm' (Function.update subsOf handle (subsOf handle ++ [nc]))
      (history ++
        if handle < pm.handleCounter then [⟨handle, cb, userData⟩] else []) := by
  have hold : ∀ i, (subsOf i).map (pm'.subscriptionIn i) =
      (subsOf i).map (pm.subscriptionIn i) := by
    intro i
    refine List.map_congr_left fun b hb => ?_
    have hne : b ≠ nc := fun heq => hfresh (heq ▸ h.represented.allocated i b hb)
    rw [PmState.subscriptionIn, PmState.subscriptionIn, hsubs, Function.update_of_ne hne]
  refine ⟨hrep, fun i hi => ?_, fun x hx => ?_⟩
  · rw [hcounter] at hi
    by_cases hih : i = handle
    · subst hih
      rw [Function.update_self, List.map_append, hold, h.lists i hi, if_pos hi]
      simp [subscriptionsTo, PmState.subscriptionIn, hsubs]
    · rw [Function.update_of_ne hih, hold, h.lists i hi]
      split
      · simp [subscriptionsTo, Ne.symm hih]
      · rw [List.append_nil]
  · rw [hcounter]
    rcases List.mem_append.mp hx with hx | hx
    · exact h.known x hx
    · split at hx
      · rw [List.mem_singleton.mp hx]
        assumption
      · cases hx

/-- The history goes on from `pm` to `pm'`: registrations and lists only grow at their
end. -/
def PmState.Continues (pm pm' : PmState Ω) (subsOf : ℕ → List ℕ)
    (history : List (Subscription Ω)) : Prop :=
  pm.handleCounter ≤ pm'.handleCounter ∧
    ∃ subsOf', Recorded pm' subsOf' history ∧ ∀ i < pm.handleCounter, subsOf i <+: subsOf' i

/-- What leaves the blocks and the counter alone continues the history. -/
theorem Recorded.continues (h : Recorded pm' subsOf history)
    (hcounter : pm'.handleCounter = pm.handleCounter) : pm.Continues pm' subsOf history :=
  ⟨hcounter.ge, subsOf, h, fun _ _ => List.prefix_rfl⟩

/-- Enabling and disabling subscribe nobody. -/
theorem Recorded.setEnabled (h : Recorded pm subsOf history) (on : Bool) (handle : ℕ) :
    pm.Continues (stepPmSetEnabled P pm on handle).pm subsOf history := by
  obtain ⟨nodes, hpm, hnodes⟩ := stepPmSetEnabled_frame P pm on handle
  rw [hpm]
  exact (h.of_same (h.represented.setEnabled fun i => (hnodes i).1) rfl rfl).continues rfl

/-- Nor does a registration. -/
theorem Recorded.register (h : Recorded pm subsOf history)
    (hle : pm.handleCounter ≤ P.nodeLimit) (node : StepNodeChain Ω) (pri : ℕ)
    (world : ℕ → Ω) :
    pm.Continues (apiCall P pm (.register node pri world)).pm subsOf history := by
  have hmove := apiCall_move hle (.register node pri world)
  generalize (apiCall P pm (.register node pri world)).pm = pm' at hmove
  cases hmove with
  | full _ _ _ _ => exact h.continues rfl
  | add _ _ _ _ =>
      refine ⟨Nat.le_succ _, _, h.add node pri, fun i hi => ?_⟩
      rw [Function.update_of_ne hi.ne]
  | setEnabled _ _ hc _ => rcases hc with hc | hc <;> cases hc

/-- A subscription to a registered handle is recorded if it is granted. -/
theorem Recorded.subscribeCall (h : Recorded s.pm subsOf history) {t : Tid} {handle : ℕ}
    {cb : Option (FnPtr (NodeChainCompletedCallback Ω))} {userData : ℕ} {block : Option ℕ}
    (hheap : (ApiCall.subscribe handle cb userData block).heapOk s.pm = true) :
    s.pm.Continues (apiCall P s.pm (.subscribe handle cb userData block)).pm subsOf
      (history ++ subscriptionOf P s (.other t (.subscribe handle cb userData block))) := by
  rcases subscribe_cases P s.pm handle cb userData block with
    ⟨-, rc, fault, hcall, hrc⟩ | ⟨nc, rfl, hle', hlt, hcall⟩
  · have hnone : subscriptionOf P s (.other t (.subscribe handle cb userData block)) = [] := by
      rw [subscriptionOf, hcall]
      exact if_neg fun hok => hrc.mpr hok.2.1 hok.1
    rw [hnone, List.append_nil, hcall]
    exact h.continues rfl
  · have hfresh : nc ∉ s.pm.subAllocated := by simpa [ApiCall.heapOk] using hheap
    have hnew : nc ∉ subsOf handle := fun hmem =>
      hfresh (h.represented.allocated handle nc hmem)
    have happ := h.represented.append cb userData hfresh
      (P.slist.append_places (h.represented.holds handle) hnew)
    have hone : subscriptionOf P s (.other t (.subscribe handle cb userData (some nc))) =
        if handle < s.pm.handleCounter then [⟨handle, cb, userData⟩] else [] := by
      rw [subscriptionOf, hcall]
      simp [Outcome.ret]
    rw [hone, hcall]
    refine ⟨le_rfl, _, h.subscribe cb userData hfresh happ rfl rfl, fun i _ => ?_⟩
    by_cases hih : i = handle
    · subst hih
      rw [Function.update_self]
      exact List.prefix_append _ _
    · rw [Function.update_of_ne hih]

/-- **The step lemma of the history**: the lists of the registered records stay or grow at their
end.  A clear is excluded, as it begins a new history. -/
theorem sysStep_recorded {label : Label Ω} (hle : s.pm.handleCounter ≤ P.nodeLimit)
    (h : Recorded s.pm subsOf history) (hlabel : label.NoClear)
    (hstep : sysStep P s label = some s') :
    s.pm.Continues s'.pm subsOf (history ++ subscriptionOf P s label) := by
  have hnone : Recorded s.pm subsOf (history ++ []) := (List.append_nil history).symm ▸ h
  obtain ⟨-, hmove⟩ := sysStep_move hstep
  cases hmove with
  | process _ _ _ _ => exact hnone.continues rfl
  | proc _ hmove =>
      have hsame := hmove.sameRegistry
      have hrep := h.represented.of_sameRegistry hsame
      exact (hnone.of_same hrep hsame.subs hsame.handleCounter).continues hsame.handleCounter
  | other t c _ _ hheap =>
      cases c with
      | clear => exact absurd rfl hlabel
      | enable handle => exact hnone.setEnabled true handle
      | disable handle => exact hnone.setEnabled false handle
      | register node pri world => exact hnone.register hle node pri world
      | subscribe handle cb userData block => exact h.subscribeCall hheap

end History

/-! ### The subscriber loop -/

/-- A call of a subscriber, as the subscriber sees it. -/
structure SubscriberCall where
  fn : ℕ
  mesAddr : ℕ
  handle : ℕ
  userData : ℕ
  deriving DecidableEq, Repr

/-- The call a subscriber event records. -/
def Event.subscriberCall : Event → Option SubscriberCall
  | .subscriber _ fn mesAddr handle userData _ _ => some ⟨fn, mesAddr, handle, userData⟩
  | _ => none

/-- **The calls subscriptions are owed** when a chain completes: one for each callback that is not
NULL, in order.  The specification of delivery, as a function of the history. -/
def deliveries (a : ChainArgs) (subs : List (Subscription Ω)) : List SubscriberCall :=
  subs.filterMap fun x => x.cb.map fun f => ⟨f.addr, a.mesAddr, a.under.handle, x.userData⟩

/-- **Where the subscriber loop stands** in the list `l`, with `k` blocks passed and `owed`
to be passed at least.  A successor that has been prefetched may be missing although the
list has grown since. -/
def LoopAt (l : List ℕ) (owed k : ℕ) : Pc Ω → Prop
  | .subsHead => k = 0
  | .subs entry subsTmp => ∃ passed rest, l = passed ++ entry :: rest ∧ passed.length = k ∧
      (subsTmp = none ∨ subsTmp = rest.head?) ∧ (subsTmp = none → owed ≤ k + 1)
  | .subsNext subsTmp => ∃ passed rest, l = passed ++ rest ∧ passed.length = k ∧
      (subsTmp = none ∨ subsTmp = rest.head?) ∧ (subsTmp = none → owed ≤ k)
  | .relock => k ≤ l.length ∧ owed ≤ k
  | _ => False

section Loop

variable {l l' : List ℕ} {owed k : ℕ} {next : Links ℕ} {a : ChainArgs}

/-- A prefetched successor is not overtaken by blocks appended at the end. -/
theorem head?_append_tail {rest more : List ℕ} {tmp : Option ℕ}
    (h : tmp = none ∨ tmp = rest.head?) : tmp = none ∨ tmp = (rest ++ more).head? := by
  rcases h with h | h
  · exact Or.inl h
  · cases rest with
    | nil => exact Or.inl h
    | cons b rest => exact Or.inr h

/-- **The list may grow meanwhile.** -/
theorem LoopAt.grow {pc : Pc Ω} (h : LoopAt l owed k pc) (hgrow : l <+: l') :
    LoopAt l' owed k pc := by
  obtain ⟨more, rfl⟩ := hgrow
  cases pc with
  | subsHead => exact h
  | subs entry subsTmp =>
      obtain ⟨passed, rest, rfl, hk, htmp, howed⟩ := h
      exact ⟨passed, rest ++ more, by simp, hk, head?_append_tail htmp, howed⟩
  | subsNext subsTmp =>
      obtain ⟨passed, rest, rfl, hk, htmp, howed⟩ := h
      exact ⟨passed, rest ++ more, by simp, hk, head?_append_tail htmp, howed⟩
  | relock =>
      obtain ⟨hk, howed⟩ := h
      exact ⟨by rw [List.length_append]; omega, howed⟩
  | _ => exact absurd h id

/-- Going on at the successor in the list, or at its end. -/
theorem loopAt_goOnSubs {header : Header ℕ} {passed rest : List ℕ}
    (hholds : Holds next header (passed ++ rest)) (howed : owed ≤ (passed ++ rest).length)
    {tmp : Option ℕ} (htmp : tmp = none ∨ tmp = rest.head?)
    (hlast : tmp = none → owed ≤ passed.length) (q : Proc Ω) :
    LoopAt (passed ++ rest) owed passed.length (q.goOnSubs next tmp).pc := by
  cases tmp with
  | none =>
      refine ⟨?_, hlast rfl⟩
      rw [List.length_append]
      omega
  | some e =>
      have hhead : some e = rest.head? := htmp.resolve_left (Option.some_ne_none e)
      cases rest with
      | nil => cases hhead
      | cons b rest =>
          obtain rfl : e = b := Option.some.inj hhead
          have hnext : next e = rest.head? := hholds.next_eq
          refine ⟨passed, rest, rfl, rfl, Or.inr hnext, fun hnone => ?_⟩
          -- nothing was prefetched, so this is the last block there is
          rw [hnext, List.head?_eq_none_iff] at hnone
          subst hnone
          simpa using howed

/-- The loop does not run past the end of the list. -/
theorem LoopAt.le_length {pc : Pc Ω} (h : LoopAt l owed k pc) : k ≤ l.length := by
  cases pc with
  | subsHead =>
      obtain rfl : k = 0 := h
      exact Nat.zero_le _
  | subs entry subsTmp =>
      obtain ⟨passed, rest, rfl, rfl, -⟩ := h
      exact List.length_append ▸ Nat.le_add_right _ _
  | subsNext subsTmp =>
      obtain ⟨passed, rest, rfl, rfl, -⟩ := h
      exact List.length_append ▸ Nat.le_add_right _ _
  | relock => exact h.1
  | _ => exact absurd h id

theorem deliveries_append (subs subs' : List (Subscription Ω)) :
    deliveries a (subs ++ subs') = deliveries a subs ++ deliveries a subs' :=
  List.filterMap_append

/-- One more subscription passed. -/
theorem deliveries_take_succ {subs : List (Subscription Ω)} {x : Subscription Ω}
    (hx : subs[k]? = some x) :
    deliveries a (subs.take (k + 1)) = deliveries a (subs.take k) ++ deliveries a [x] := by
  rw [List.take_add_one, hx, deliveries_append]
  rfl

end Loop

/-- **The subscriber loop in flight**: the history at its start, what has been subscribed since,
how far the loop has come, and what has been called.  A subscriber who comes in while the loop
runs may be called or not, according to whether its block was linked in before the last successor
was fetched; the invariant allows both. -/
structure LoopRun (P : Platform) (a : ChainArgs) (history : List (Subscription Ω))
    (before : List Event) (s : Sys Ω) (since : List (Subscription Ω)) : Prop where
  invariant : ChainInvariant P s
  epoch : s.pm.epoch = a.under.epoch
  registered : a.under.handle < s.pm.handleCounter
  loop : ∃ q subsOf k events, s.proc = some q ∧ q.mesAddr = a.mesAddr ∧ q.under = a.under ∧
    q.pnode = a.under.handle ∧ Recorded s.pm subsOf (history ++ since) ∧
    LoopAt (subsOf q.pnode) (subscriptionsTo a.under.handle history).length k q.pc ∧
    s.log = before ++ events ∧
    events.filterMap Event.subscriberCall =
      deliveries a ((subscriptionsTo a.under.handle (history ++ since)).take k)

section LoopRun

variable {P : Platform} {s s' : Sys Ω} {p : Proc Ω} {inp : Inputs Ω} {a : ChainArgs}
  {history since : List (Subscription Ω)} {before : List Event} {subsOf : ℕ → List ℕ}
  {owed k : ℕ}

theorem doneEvents_not_subscriber (slot : ℕ) (next : Option ℕ) :
    (doneEvents slot next).filterMap Event.subscriberCall = [] := by
  unfold doneEvents
  split <;> rfl

/-- The subscription a block stands for. -/
theorem Recorded.getElem? (h : Recorded s.pm subsOf history) {handle entry : ℕ}
    (hlt : handle < s.pm.handleCounter) {passed rest : List ℕ}
    (hlist : subsOf handle = passed ++ entry :: rest) :
    (subscriptionsTo handle history)[passed.length]? =
      some (s.pm.subscriptionIn handle entry) := by
  rw [← h.lists handle hlt, hlist]
  simp

/-- **The step lemma of the subscriber loop**, for the thread itself. -/
theorem ChainMove.loop (hmove : ChainMove s p inp s')
    (hhandle : (s.pm.nodes p.pnode).handle = p.under.handle)
    (hpnode : p.pnode = p.under.handle) (hlt : p.under.handle < s.pm.handleCounter)
    (hrec : Recorded s.pm subsOf history)
    (howed : owed ≤ (subsOf p.pnode).length) (h : LoopAt (subsOf p.pnode) owed k p.pc) :
    ∃ q k' events, s'.fault = s.fault ∧ s'.proc = some q ∧ q.mesAddr = p.mesAddr ∧
      q.under = p.under ∧ q.pnode = p.pnode ∧ s'.log = s.log ++ events ∧
      LoopAt (subsOf p.pnode) owed k' q.pc ∧
      deliveries ⟨p.mesAddr, p.under⟩ ((subscriptionsTo p.under.handle history).take k') =
        deliveries ⟨p.mesAddr, p.under⟩ ((subscriptionsTo p.under.handle history).take k) ++
          events.filterMap Event.subscriberCall := by
  have hholds := hrec.represented.holds p.pnode
  cases hmove with
  | skip hpc _ | call hpc _ _ _ _ _ | error hpc _ _ _ | nullError hpc _ =>
      rw [hpc] at h
      exact absurd h id
  | fetch hpc =>
      rw [hpc] at h
      obtain rfl : k = 0 := h
      have hsame := p.goOnSubs_sameVisit s.pm.epoch s.pm.subSnode
        (s.pm.nodes p.pnode).subCallbacks.head
      refine ⟨_, 0, _, rfl, rfl, hsame.mesAddr, hsame.under, hsame.pnode, rfl, ?_, ?_⟩
      · have hlast : (s.pm.nodes p.pnode).subCallbacks.head = none → owed ≤ 0 := by
          intro hnone
          rw [hholds.head_eq, List.head?_eq_none_iff] at hnone
          simpa [hnone] using howed
        have hfrom : Holds s.pm.subSnode (s.pm.nodes p.pnode).subCallbacks
            ([] ++ subsOf p.pnode) := hholds
        exact loopAt_goOnSubs hfrom howed (Or.inr hholds.head_eq) hlast _
      · rw [doneEvents_not_subscriber, List.append_nil]
  | @skipSub entry subsTmp hpc hnone =>
      -- an entry without a callback is passed over, and owes no delivery either
      rw [hpc] at h
      obtain ⟨passed, rest, hlist, rfl, htmp, hlast⟩ := h
      have hx := hrec.getElem? hlt (hpnode ▸ hlist)
      refine ⟨_, passed.length + 1, [], rfl, rfl, rfl, rfl, rfl, (List.append_nil _).symm, ?_, ?_⟩
      · exact ⟨passed ++ [entry], rest, by simp [hlist], by simp, htmp, hlast⟩
      · rw [deliveries_take_succ hx]
        simp [deliveries, PmState.subscriptionIn, hnone]
  | @callSub entry subsTmp hpc f hsome mes =>
      rw [hpc] at h
      obtain ⟨passed, rest, hlist, rfl, htmp, hlast⟩ := h
      have hx := hrec.getElem? hlt (hpnode ▸ hlist)
      refine ⟨_, passed.length + 1, _, rfl, rfl, rfl, rfl, rfl, rfl, ?_, ?_⟩
      · exact ⟨passed ++ [entry], rest, by simp [hlist], by simp, htmp, hlast⟩
      · rw [deliveries_take_succ hx]
        simp [deliveries, PmState.subscriptionIn, hsome, Event.subscriberCall, hhandle]
  | nextSub hpc =>
      -- the successor was read before the call; by now the list may have grown behind it
      rw [hpc] at h
      obtain ⟨passed, rest, hlist, rfl, htmp, hlast⟩ := h
      have hsame := p.goOnSubs_sameVisit p.fetched s.pm.subSnode ‹_›
      refine ⟨_, passed.length, _, rfl, rfl, hsame.mesAddr, hsame.under, hsame.pnode, rfl, ?_, ?_⟩
      · rw [hlist] at hholds howed ⊢
        exact loopAt_goOnSubs hholds howed htmp hlast p
      · rw [doneEvents_not_subscriber, List.append_nil]

/-- The list is not shorter than the history at the start of the loop. -/
theorem Recorded.owed_le (h : Recorded s.pm subsOf (history ++ since)) {handle : ℕ}
    (hlt : handle < s.pm.handleCounter) :
    (subscriptionsTo handle history).length ≤ (subsOf handle).length := by
  have hlen := congrArg List.length (h.lists handle hlt)
  rw [List.length_map, subscriptionsTo, List.filter_append, List.length_append] at hlen
  rw [subscriptionsTo, hlen]
  exact Nat.le_add_right _ _

/-- What the loop has passed is on record. -/
theorem Recorded.le_length (h : Recorded s.pm subsOf history) {handle : ℕ}
    (hlt : handle < s.pm.handleCounter) {pc : Pc Ω} (hloop : LoopAt (subsOf handle) owed k pc) :
    k ≤ (subscriptionsTo handle history).length := by
  rw [← h.lists handle hlt, List.length_map]
  exact hloop.le_length

theorem subscriptionsTo_append (handle : ℕ) (history more : List (Subscription Ω)) :
    subscriptionsTo handle (history ++ more) =
      subscriptionsTo handle history ++ subscriptionsTo handle more :=
  List.filter_append _ _

/-- Other threads' calls call no subscriber. -/
theorem apiCall_not_subscriber (P : Platform) (pm : PmState Ω) (c : ApiCall Ω) :
    (apiCall P pm c).events.filterMap Event.subscriberCall = [] := by
  rw [List.filterMap_eq_nil_iff]
  intro e he
  have hinit := apiCall_events P pm c e he
  cases e <;> simp_all [Event.isInit, Event.subscriberCall]

/-- **The step lemma of the subscriber loop.** -/
theorem sysStep_loopRun {label : Label Ω} (h : LoopRun P a history before s since)
    (hlabel : WithinChain s label) (hstep : sysStep P s label = some s') :
    LoopRun P a history before s' (since ++ subscriptionOf P s label) := by
  have hinv := sysStep_chainInvariant h.invariant hstep
  obtain ⟨q, subsOf, k, events, hproc, hmes, hunder, hpnode, hrec, hloop, hlog, hcalls⟩ :=
    h.loop
  obtain ⟨regs, l, hrep⟩ := h.invariant.registry
  have hclear : label.NoClear := by
    cases label with
    | process _ _ _ => trivial
    | proc _ => trivial
    | other _ _ => exact hlabel
  obtain ⟨hcounter, subsOf', hrec', hgrow⟩ :=
    sysStep_recorded hrep.counter_le hrec hclear hstep
  have hregistered := h.registered.trans_le hcounter
  obtain ⟨-, hmove⟩ := sysStep_move hstep
  cases hmove with
  | process _ _ _ _ => exact absurd hlabel id
  | other t c _ _ _ =>
      have hloop' := hloop.grow (hgrow q.pnode (hpnode ▸ h.registered))
      have hk : k ≤ (subscriptionsTo a.under.handle (history ++ since)).length :=
        hrec.le_length h.registered (hpnode ▸ hloop)
      refine ⟨hinv, (apiCall_epoch_of_ne_clear hrep.counter_le hlabel).trans h.epoch,
        hregistered, q, subsOf', k, events ++ (apiCall P s.pm c).events, hproc, hmes, hunder,
        hpnode, by rwa [← List.append_assoc], hloop', ?_, ?_⟩
      · rw [← List.append_assoc, ← hlog]
        rfl
      · -- what was subscribed just now comes after all that has been passed
        rw [List.filterMap_append, apiCall_not_subscriber, List.append_nil, hcalls,
          ← List.append_assoc, subscriptionsTo_append _ (history ++ since),
          List.take_append_of_le_length hk]
  | @proc inp p _ hproc' hmove =>
      obtain rfl := Option.some.inj (hproc.symm.trans hproc')
      have hin := hlabel q hproc
      have hchain := procStep_chainMove hin (procStep_of_sysStep hstep hproc)
      have hhandle := h.invariant.handle_eq hproc hin (hunder ▸ h.epoch)
      have hsame := hmove.sameRegistry
      have hlt : q.under.handle < s.pm.handleCounter := hunder ▸ h.registered
      have ha : (⟨q.mesAddr, q.under⟩ : ChainArgs) = a := by
        rw [hmes, hunder]
      have hpnode' : q.pnode = q.under.handle := hunder ▸ hpnode
      have howed := hrec.owed_le h.registered
      obtain ⟨q', k', new, -, hproc'', hmes', hunder', hpn, hlog', hloop', hpassed⟩ :=
        hchain.loop hhandle hpnode' hlt hrec (hpnode ▸ howed) hloop
      rw [ha, hunder] at hpassed
      refine ⟨hinv, hsame.epoch.trans h.epoch, hregistered, q', subsOf, k', events ++ new,
        hproc'', hmes'.trans hmes, hunder'.trans hunder, hpn.trans hpnode, ?_, hpn ▸ hloop',
        ?_, ?_⟩
      · show Recorded s'.pm subsOf (history ++ (since ++ []))
        rw [List.append_nil]
        exact hrec.of_same (hrec.represented.of_sameRegistry hsame) hsame.subs
          hsame.handleCounter
      · rw [hlog', hlog, List.append_assoc]
      · show _ = deliveries a ((subscriptionsTo _ (history ++ (since ++ []))).take k')
        rw [List.append_nil, hpassed, List.filterMap_append, hcalls]

/-- The loop has passed its last block: the next step takes the mutex back. -/
def LoopDone (s : Sys Ω) : Prop :=
  ∃ q, s.proc = some q ∧ q.pc = .relock

/-- Short of its end the loop stands inside the chain. -/
theorem LoopRun.inChain (h : LoopRun P a history before s since) (hgoal : ¬LoopDone s) :
    ∃ q, s.proc = some q ∧ q.pc.InChain := by
  obtain ⟨q, subsOf, k, events, hproc, -, -, -, -, hloop, -⟩ := h.loop
  refine ⟨q, hproc, ?_⟩
  cases hpc : q.pc with
  | relock => exact absurd ⟨q, hproc, hpc⟩ hgoal
  | subsHead | subs _ _ | subsNext _ => trivial
  | _ => rw [hpc] at hloop; exact absurd hloop id

/-- **One step of the subscriber loop**: it is taken, whatever the subscriber does and the
clocks say, leaves nothing undefined, and brings the end of the loop closer. -/
theorem LoopRun.step (h : LoopRun P a history before s since) (hreturns : ReturnInvariant P s)
    (hfault : s.fault = none) (hgoal : ¬LoopDone s) (inp : Inputs Ω) :
    ∃ s', sysStep P s (.proc inp) = some s' ∧ LoopRun P a history before s' since ∧
      ReturnInvariant P s' ∧ s'.fault = none ∧ s'.rank < s.rank := by
  obtain ⟨p, hp, hin⟩ := h.inChain hgoal
  obtain ⟨q, subsOf, k, events, hproc, hmes, hunder, hpnode, hrec, hloop, -⟩ := h.loop
  obtain rfl := Option.some.inj (hp.symm.trans hproc)
  obtain ⟨s', hs'⟩ : ∃ s', procStep P s p inp = some s' :=
    procStep_enabled hreturns.sys.lock hproc
  have hstep : sysStep P s (.proc inp) = some s' := by simpa [sysStep, hfault, hproc] using hs'
  have hlabel : WithinChain s (.proc inp) := fun p' hp' =>
    Option.some.inj (hproc.symm.trans hp') ▸ hin
  have hrun := sysStep_loopRun h hlabel hstep
  rw [show since ++ subscriptionOf P s (.proc inp) = since from List.append_nil since] at hrun
  have hchain := procStep_chainMove hin hs'
  have hhandle := h.invariant.handle_eq hproc hin (hunder ▸ h.epoch)
  have hlt : p.under.handle < s.pm.handleCounter := hunder ▸ h.registered
  have howed := hrec.owed_le h.registered
  obtain ⟨-, -, -, hsame, -⟩ :=
    hchain.loop hhandle (hunder ▸ hpnode) hlt hrec (hpnode ▸ howed) hloop
  have hfault' := hsame.trans hfault
  refine ⟨s', hstep, hrun, sysStep_returnInvariant hreturns hstep, hfault', ?_⟩
  have hrank : s.rank = p.rank s.pm := by rw [Sys.rank, hproc]
  rw [hrank]
  exact (hchain.rank_lt hreturns.subSnode).resolve_left fun hcrash => hcrash hfault'

/-- **The subscriber loop ends** once the thread is left alone.  What is left of the list bounds
the steps; a subscription that comes in lengthens it, so the bound is one for the thread left
alone. -/
theorem LoopRun.ends (h : LoopRun P a history before s since) (hreturns : ReturnInvariant P s)
    (hfault : s.fault = none) (inputs : ℕ → Inputs Ω) :
    ∃ n t, run (sysStep P) s ((List.range n).map fun i => .proc (inputs i)) = some t ∧
      Meets (sysStep P) WithinChain s ((List.range n).map fun i => .proc (inputs i)) ∧
      LoopDone t := by
  let I : Sys Ω → Prop := fun s =>
    LoopRun P a history before s since ∧ ReturnInvariant P s ∧ s.fault = none
  have hone : ∀ s l, I s → ¬LoopDone s → (∃ inp, l = Label.proc inp) →
      ∃ s', sysStep P s l = some s' ∧ I s' ∧ (LoopDone s' ∨ s'.rank < s.rank) := by
    rintro s l ⟨hloop, hreturns, hfault⟩ hgoal ⟨inp, rfl⟩
    obtain ⟨s', hstep, hloop', hreturns', hfault', hlt⟩ :=
      hloop.step hreturns hfault hgoal inp
    exact ⟨s', hstep, ⟨hloop', hreturns', hfault'⟩, Or.inr hlt⟩
  have hproc : ∀ n, Meets (sysStep P) (fun _ l => ∃ inp, l = Label.proc inp) s
      ((List.range n).map fun i => .proc (inputs i)) :=
    fun n => meets_of_forall_mem fun l hl _ => by
      obtain ⟨i, -, rfl⟩ := List.mem_map.mp hl
      exact ⟨inputs i, rfl⟩
  obtain ⟨n, t, hrun, hmeets, -, hdone⟩ := exists_run_of_variant_meets Sys.rank hone s
    (fun i => Label.proc (inputs i)) hproc ⟨h, hreturns, hfault⟩
  refine ⟨n, t, hrun, ?_, hdone⟩
  -- every label is a step of the thread, and short of the end it stands inside the chain
  refine (hmeets.and (hproc n)).imp ?_
  rintro s l ⟨⟨⟨hloop, -, -⟩, hgoal⟩, inp, rfl⟩ p hp
  obtain ⟨q, hq, hin⟩ := hloop.inChain hgoal
  exact Option.some.inj (hq.symm.trans hp) ▸ hin

/-- What holds after a run without clears. -/
structure RecordedRun (P : Platform) (s : Sys Ω) (history : List (Subscription Ω)) : Prop where
  invariant : ChainInvariant P s
  epoch : s.pm.epoch = 0
  recorded : ∃ subsOf, Recorded s.pm subsOf history

theorem sysStep_recordedRun {label : Label Ω} (h : RecordedRun P s history)
    (hlabel : label.NoClear) (hstep : sysStep P s label = some s') :
    RecordedRun P s' (history ++ subscriptionOf P s label) := by
  obtain ⟨regs, l, hrep⟩ := h.invariant.registry
  obtain ⟨subsOf, hrec⟩ := h.recorded
  obtain ⟨-, subsOf', hrec', -⟩ := sysStep_recorded hrep.counter_le hrec hlabel hstep
  refine ⟨sysStep_chainInvariant h.invariant hstep, ?_, subsOf', hrec'⟩
  obtain ⟨-, hmove⟩ := sysStep_move hstep
  cases hmove with
  | process _ _ _ _ => exact h.epoch
  | proc _ hmove => exact hmove.sameRegistry.epoch.trans h.epoch
  | other t c _ _ _ =>
      exact (apiCall_epoch_of_ne_clear hrep.counter_le hlabel).trans h.epoch

theorem recordedRun_of_run {labels : List (Label Ω)} (hlabels : ∀ l ∈ labels, l.NoClear)
    (hrun : run (sysStep P) (Sys.init P) labels = some s) :
    RecordedRun P s (trace (sysStep P) (subscriptionOf P) (Sys.init P) labels) := by
  have hinit : RecordedRun P (Sys.init P : Sys Ω) [] :=
    ⟨chainInvariant_init P, rfl, _, recorded_init P⟩
  have hmeets : Meets (sysStep P) (fun _ l => l.NoClear) (Sys.init P) labels :=
    meets_of_forall_mem fun l hl _ => hlabels l hl
  exact run_trace_invariant (fun _ _ _ _ hI hl hstep => sysStep_recordedRun hI hl hstep)
    hinit hmeets hrun

/-- The subscriber loop starts with nothing passed. -/
theorem RecordedRun.loopRun (h : RecordedRun P s history) (hproc : s.proc = some p)
    (hpc : p.pc = .subsHead) : LoopRun P ⟨p.mesAddr, p.under⟩ history s.log s [] := by
  obtain ⟨subsOf, hrec⟩ := h.recorded
  have hflight := h.invariant.inFlight p hproc (hpc ▸ trivial)
  have hepoch : s.pm.epoch = p.under.epoch := by
    have hle := hflight.epoch_le
    rw [h.epoch] at hle ⊢
    exact (Nat.le_zero.mp hle).symm
  refine ⟨h.invariant, hepoch, hflight.handle ▸ hflight.registered hepoch, p, subsOf, 0, [],
    hproc, rfl, rfl, hflight.handle.symm, by rwa [List.append_nil], ?_,
    (List.append_nil _).symm, rfl⟩
  rw [hpc]
  exact rfl

end LoopRun

/-! ### Delivery -/

/-- **Delivery** from the end of the last node of a chain in `s`, where `history` has been
subscribed, to the end of the subscriber loop.

The other threads may take any step short of a clear in between, so the loop may meet
subscriptions that were not there when it began; how many of them it still meets depends on
where it stood when they came, since it fetches each successor before it makes the call. -/
structure Delivers (P : Platform) (history : List (Subscription Ω)) (s : Sys Ω) (p : Proc Ω) :
    Prop where
  /-- At the end of the loop the callbacks of the history have been called, and at most some
  of those subscribed meanwhile. -/
  calls : ∀ labels t q, Meets (sysStep P) WithinChain s labels →
    run (sysStep P) s labels = some t → t.proc = some q → q.pc = .relock →
    ∃ events late, t.log = s.log ++ events ∧
      late <+: subscriptionsTo p.under.handle
        (trace (sysStep P) (subscriptionOf P) s labels) ∧
      events.filterMap Event.subscriberCall =
        deliveries ⟨p.mesAddr, p.under⟩ (subscriptionsTo p.under.handle history ++ late)
  /-- From wherever it stands the loop gets to its end once the thread is left alone, unless
  a call of another thread has left defined behaviour; the subscribers themselves may do and
  the clocks say what they like. -/
  ends : ∀ labels t, Meets (sysStep P) WithinChain s labels →
    run (sysStep P) s labels = some t → t.fault = none → ∀ inputs : ℕ → Inputs Ω,
    ∃ n u q, run (sysStep P) t ((List.range n).map fun i => .proc (inputs i)) = some u ∧
      Meets (sysStep P) WithinChain t ((List.range n).map fun i => .proc (inputs i)) ∧
      u.proc = some q ∧ q.pc = .relock

/-- A subscription that fails leaves no trace; one to an invalid handle or without memory
fails. -/
def FailsCleanly (P : Platform) (s : Sys Ω) : Prop :=
  ∀ t handle cb userData block s',
    sysStep P s (.other t (.subscribe handle cb userData block)) = some s' →
    ((apiCall P s.pm (.subscribe handle cb userData block)).rc ≠ 0 → s' = s) ∧
      (s.pm.handleCounter < handle ∨ block = none →
        (apiCall P s.pm (.subscribe handle cb userData block)).rc ≠ 0)

section Delivery

variable {P : Platform} {s : Sys Ω} {p : Proc Ω} {history : List (Subscription Ω)}

theorem RecordedRun.delivers (h : RecordedRun P s history) (hreturns : ReturnInvariant P s)
    (hproc : s.proc = some p) (hpc : p.pc = .subsHead) : Delivers P history s p where
  calls := by
    intro labels t q hlabels hrun hq hpc'
    have hend := run_trace_invariant (fun _ _ _ _ hI hl hstep => sysStep_loopRun hI hl hstep)
      (h.loopRun hproc hpc) hlabels hrun
    obtain ⟨q', subsOf, k, events, hq', -, -, -, -, hloop, hlog, hcalls⟩ := hend.loop
    obtain rfl := Option.some.inj (hq.symm.trans hq')
    rw [hpc'] at hloop
    -- at its end the loop has passed the whole history
    rw [subscriptionsTo_append, List.take_append, List.take_of_length_le hloop.2] at hcalls
    exact ⟨events, _, hlog, List.take_prefix _ _, hcalls⟩
  ends := by
    intro labels t hlabels hrun hfault inputs
    have hlooping := run_trace_invariant (fun _ _ _ _ hI hl hstep => sysStep_loopRun hI hl hstep)
      (h.loopRun hproc hpc) hlabels hrun
    obtain ⟨n, u, hrun', hmeets, q, hq, hdone⟩ :=
      hlooping.ends (run_returnInvariant hreturns hrun) hfault inputs
    exact ⟨n, u, q, hrun', hmeets, hq, hdone⟩

/-- An invalid handle and a pool without memory are refused. -/
theorem subscribe_refused {pm : PmState Ω} {handle : ℕ}
    (cb : Option (FnPtr (NodeChainCompletedCallback Ω))) (userData : ℕ) {block : Option ℕ}
    (h : pm.handleCounter < handle ∨ block = none) :
    (apiCall P pm (.subscribe handle cb userData block)).rc ≠ 0 := by
  simp only [apiCall, stepPmSubscribeToNode]
  by_cases hgt : pm.handleCounter < handle
  · rw [if_pos hgt]
    exact show negEinval ≠ 0 by decide
  · obtain rfl := h.resolve_left hgt
    rw [if_neg hgt]
    exact show negEnomem ≠ 0 by decide

theorem failsCleanly (P : Platform) (s : Sys Ω) : FailsCleanly P s := by
  intro t handle cb userData block s' hstep
  refine ⟨fun hne => ?_, subscribe_refused cb userData⟩
  obtain ⟨hfault, hmove⟩ := sysStep_move hstep
  cases hmove with
  | other _ _ _ _ _ =>
      rcases subscribe_cases P s.pm handle cb userData block with
        ⟨-, rc, fault, hcall, hrc⟩ | ⟨nc, -, -, -, hcall⟩
      · rw [hcall] at hne ⊢
        rw [hrc.mp hne, Sys.afterCall, List.append_nil, ← hfault]
      · rw [hcall] at hne
        exact absurd rfl hne

/-- **Delivery to subscribers.**  In every run without clears, each time the last node of a
chain is done the callbacks subscribed to its handle are called, up to the last one, and
failed subscriptions are as if they had not been made. -/
theorem subscribers_delivered {start : List (Label Ω)} (hstart : ∀ l ∈ start, l.NoClear)
    (hrun : run (sysStep P) (Sys.init P) start = some s) :
    (∀ p, s.proc = some p → p.pc = .subsHead →
      Delivers P (trace (sysStep P) (subscriptionOf P) (Sys.init P) start) s p) ∧
      FailsCleanly P s :=
  ⟨fun _ hproc hpc =>
    (recordedRun_of_run hstart hrun).delivers (returnInvariant_of_run hrun) hproc hpc,
    failsCleanly P s⟩

/-- Two registrations of one chain, two subscribers of the first and one of the second, and
a measurement up to the end of the last node. -/
def subscribedVisit : List (Label Unit) :=
  let cb : FnPtr (NodeChainCompletedCallback Unit) := ⟨200, fun _ mes _ _ => mes⟩
  [.other 1 (.register workingChain 2 fun _ => ()),
    .other 1 (.register workingChain 1 fun _ => ()),
    .other 1 (.subscribe 0 (some cb) 7 (some 0)), .other 1 (.subscribe 1 (some cb) 8 (some 1)),
    .other 1 (.subscribe 0 (some cb) 9 (some 2)),
    .process 64 ⟨⟨0#32, 0#32, 0#32⟩, []⟩ false] ++ List.replicate 6 failingTick

/-- Five steps later the loop has come to its end: both subscribers of the chain have been
called with their own user data, and the one of the other chain has not. -/
theorem subscribers_delivered_two :
    ∃ s p t q, run (sysStep Platform.tests) (Sys.init Platform.tests) subscribedVisit = some s ∧
      s.proc = some p ∧ p.pc = .subsHead ∧
      Delivers Platform.tests
        (trace (sysStep Platform.tests) (subscriptionOf Platform.tests)
          (Sys.init Platform.tests) subscribedVisit) s p ∧
      FailsCleanly Platform.tests s ∧
      run (sysStep Platform.tests) s (List.replicate 5 failingTick) = some t ∧
      t.proc = some q ∧ q.pc = .relock ∧
      t.log.filterMap Event.subscriberCall = [⟨200, 64, 0, 7⟩, ⟨200, 64, 0, 9⟩] := by
  obtain ⟨s, p, t, q, hrun, hproc, hpc, hrun', hproc', hpc', hcalls⟩ : ∃ s p t q,
      run (sysStep Platform.tests) (Sys.init Platform.tests) subscribedVisit = some s ∧
        s.proc = some p ∧ p.pc = .subsHead ∧
        run (sysStep Platform.tests) s (List.replicate 5 failingTick) = some t ∧
        t.proc = some q ∧ q.pc = .relock ∧
        t.log.filterMap Event.subscriberCall = [⟨200, 64, 0, 7⟩, ⟨200, 64, 0, 9⟩] :=
    ⟨_, _, _, _, rfl, rfl, rfl, rfl, rfl, rfl, rfl⟩
  have hnoClear : ∀ l ∈ subscribedVisit, l.NoClear := by
    simp [subscribedVisit, Label.NoClear, failingTick]
  obtain ⟨hdelivers, hclean⟩ := subscribers_delivered hnoClear hrun
  exact ⟨s, p, t, q, hrun, hproc, hpc, hdelivers p hproc hpc, hclean, hrun', hproc', hpc',
    hcalls⟩

end Delivery

end StepPipeline
