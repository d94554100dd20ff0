import StepPipeline.Dispatch

/-!
# Under which registration callbacks are called

Around the callbacks of a chain `step_pm_process` holds no lock, and it reads the
handle and the list of subscribers from the record again each time.  A
`step_pm_clear` may have wiped the record by then, and a `step_pm_register` may
have filled it in for another chain.

* `Event.Identified` — a callback was called under the registration its chain was
  matched under;
* `ReadsOwnRecord` — the condition on the state before a step: a handler is called
  while the slot holds a registration, or is slot 0; a subscriber is called only
  if no clear came between the match and the fetch of the first subscriber;
* `callbacks_identified_iff` — the callbacks of a run are identified **exactly**
  when every step of it meets the condition;
* `callbacks_identified_of_no_clear` — it is met when no clear comes in between a
  match and the fetch of the first subscriber;
* `stale_handle` — a clear that does.

## What identifies a registration

Handles are given out again after a clear, so that two registrations may have one handle.  A
callback cannot tell them apart by the handle it is given; but the question whether it was called
under the registration its chain was matched under has an answer all the same, and `Registration`
is there to give it.  For a handler the handle it receives is what counts, as that is all the code
passes; for a subscriber it is what the block it sits in was attached to.

## Why the condition is as it is

The record is wiped by a clear, and its handle reads 0 from then on until a registration fills the
slot in again, with the index of the slot as its handle.  So the handle that a handler receives is
wrong exactly while the slot holds no registration and is not slot 0, even if that registration is
not the old one.  Subscribers are different: once the first block has been fetched the loop stays
among the blocks of one registration for good (`linked`), so everything is decided at the moment
of the fetch.
-/

namespace StepPipeline

open IntrusiveList LabelledRun

variable {Ω : Type}

/-- **The callback was called under the registration its chain was matched
under**: handlers by the handle they receive, subscribers by what they were
attached to. -/
def Event.Identified : Event → Prop
  | .handler _ _ _ handle _ _ under | .error _ _ _ handle _ _ under => handle = under.handle
  | .subscriber _ _ _ _ _ subscribedTo under => subscribedTo = some under
  | _ => True

instance (e : Event) : Decidable e.Identified :=
  match e with
  | .handler _ _ _ handle _ _ under | .error _ _ _ handle _ _ under =>
      inferInstanceAs (Decidable (handle = under.handle))
  | .subscriber _ _ _ _ _ subscribedTo under =>
      inferInstanceAs (Decidable (subscribedTo = some under))
  | .init _ _ _ _ | .initError _ _ _ _ | .visit _ _ | .evaluate _ _ _ _ _
  | .matched _ _ _ _ _ | .verdict _ _ | .execute _ | .chainDone _ | .free _ | .returned _ =>
      isTrue trivial

/-- The slot of the chain in flight holds a registration, or is slot 0, whose handle is that of a
wiped record.  It may hold another registration than the one of the match: the handle is the same,
since a handle is the index of its slot. -/
def Proc.HandleKept (pm : PmState Ω) (p : Proc Ω) : Prop :=
  p.pnode = 0 ∨ p.pnode < pm.handleCounter

/-- **The condition on a step**: if it calls a handler, the handle in the record is the one of the
match; if it calls a subscriber, the subscribers were fetched with no clear since the match.  It
is a condition on the state before the step and mentions no call that is made. -/
def Proc.ReadsOwnRecord (pm : PmState Ω) (p : Proc Ω) : Prop :=
  match p.pc with
  | .call phase _ n _ => n.callbacks.handler phase ≠ none → p.HandleKept pm
  | .error _ _ n _ _ => n.callbacks.errorHandler ≠ none → p.HandleKept pm
  | .subs entry _ => (pm.subs entry).cb ≠ none → p.fetched = p.under.epoch
  | _ => True

/-- …as a condition on the steps of the system; the other threads may do what they
like. -/
def ReadsOwnRecord (s : Sys Ω) : Label Ω → Prop
  | .proc _ =>
      match s.proc with
      | none => True
      | some p => p.ReadsOwnRecord s.pm
  | _ => True

/-! ### The invariant -/

/-- A block the subscriber loop may call: it is in use, and it belongs to the registration of the
match exactly if it was fetched before any clear.  An equivalence is needed here, not an
implication: the theorem is exact, so it has to know of the blocks fetched too late that they are
wrong. -/
def Proc.MayCall (pm : PmState Ω) (p : Proc Ω) (b : ℕ) : Prop :=
  b ∈ pm.subAllocated ∧
    ((pm.subs b).subscribedTo = some p.under ↔ p.fetched = p.under.epoch)

/-- The subscriber loop stands at a block: it is about to call it, or has
prefetched it. -/
def Pc.StandsAt (pc : Pc Ω) (b : ℕ) : Prop :=
  match pc with
  | .subs entry subsTmp => b = entry ∨ subsTmp = some b
  | .subsNext subsTmp => subsTmp = some b
  | _ => False

/-- The chain in flight was matched under the handle of its slot; unless the
registry has been cleared since, the slot still holds that registration; and the
blocks the subscriber loop stands at may be called. -/
structure Proc.InFlight (pm : PmState Ω) (p : Proc Ω) : Prop where
  handle : p.under.handle = p.pnode
  epoch_le : p.under.epoch ≤ pm.epoch
  registered : pm.epoch = p.under.epoch → p.pnode < pm.handleCounter
  subscribers : ∀ b, p.pc.StandsAt b → p.MayCall pm b

/-- **The invariant of the chain in flight.** The registry and the subscribers are represented,
and while a chain is executed, what the thread remembers of the match is related to the statics as
they are now. -/
structure ChainInvariant (P : Platform) (s : Sys Ω) : Prop where
  registry : ∃ regs l, Represents P s.pm regs l
  subscribers : ∃ subsOf, SubsRepresented s.pm subsOf
  inFlight : ∀ p, s.proc = some p → p.pc.InChain → p.InFlight s.pm

theorem chainInvariant_init (P : Platform) : ChainInvariant P (Sys.init P : Sys Ω) :=
  ⟨⟨[], [], represents_init P⟩, ⟨_, subsRepresented_init P⟩, fun _ h => by cases h⟩

section Invariant

variable {P : Platform} {s s' : Sys Ω} {p : Proc Ω} {inp : Inputs Ω} {pm pm' : PmState Ω}
  {regs : List (StepNodeChain Ω × ℕ)} {l : List ℕ} {subsOf : ℕ → List ℕ}

/-- The handle a record holds: its index if it is registered, else 0. -/
theorem handle_eq_iff (hrep : Represents P pm regs l) (hsubs : SubsRepresented pm subsOf)
    (i : ℕ) : (pm.nodes i).handle = i ↔ i = 0 ∨ i < pm.handleCounter := by
  rcases lt_or_ge i pm.handleCounter with hlt | hge
  · have hlt' : i < regs.length := hrep.counter_eq ▸ hlt
    have hslot := hrep.slot i regs[i] (List.getElem?_eq_getElem hlt')
    simp [hslot.1, hlt]
  · rw [(hsubs.wiped i hge).1]
    constructor
    · exact fun h => Or.inl h.symm
    · rintro (rfl | hlt)
      · rfl
      · omega

/-- Calls of other threads only move the registry on to later epochs, and within
one epoch they only add registrations. -/
theorem apiCall_epoch (hle : pm.handleCounter ≤ P.nodeLimit) (c : ApiCall Ω) :
    pm.epoch ≤ (apiCall P pm c).pm.epoch ∧
      ((apiCall P pm c).pm.epoch = pm.epoch →
        pm.handleCounter ≤ (apiCall P pm c).pm.handleCounter) := by
  have hstep := apiCall_registryStep hle c
  generalize (apiCall P pm c).pm = pm' at hstep
  cases hstep with
  | same _ hcounter _ _ hepoch _ _ _ => exact ⟨hepoch.ge, fun _ => hcounter.ge⟩
  | clear => exact ⟨Nat.le_succ _, fun h => absurd h (Nat.succ_ne_self _)⟩
  | add node pri _ _ => exact ⟨le_rfl, fun _ => Nat.le_succ _⟩

theorem Proc.MayCall.apiCall (hle : pm.handleCounter ≤ P.nodeLimit) {c : ApiCall Ω}
    (hheap : c.heapOk pm = true) {b : ℕ} (h : p.MayCall pm b) :
    p.MayCall (apiCall P pm c).pm b := by
  obtain ⟨hmem, hsame⟩ := apiCall_subs_frame hle hheap h.1
  rw [Proc.MayCall, hsame]
  exact ⟨hmem, h.2⟩

/-- **Other threads keep the invariant of the chain in flight**, clears included. -/
theorem Proc.InFlight.apiCall (hle : pm.handleCounter ≤ P.nodeLimit) {c : ApiCall Ω}
    (hheap : c.heapOk pm = true) (h : p.InFlight pm) : p.InFlight (apiCall P pm c).pm := by
  obtain ⟨hepoch, hcounter⟩ := apiCall_epoch hle c
  refine ⟨h.handle, h.epoch_le.trans hepoch, fun heq => ?_,
    fun b hb => (h.subscribers b hb).apiCall hle hheap⟩
  -- an epoch that is still that of the match was so before the call
  have hle' := h.epoch_le
  have hsame : (StepPipeline.apiCall P pm c).pm.epoch = pm.epoch := by omega
  exact (h.registered (hsame ▸ heq)).trans_le (hcounter hsame)

/-- The successor of a block that may be called may be called. -/
theorem Proc.MayCall.next (hsubs : SubsRepresented pm subsOf) {b b' : ℕ}
    (h : p.MayCall pm b) (hlink : pm.subSnode b = some b') : p.MayCall pm b' := by
  obtain ⟨hmem, hsame⟩ := hsubs.linked b h.1 b' hlink
  rw [Proc.MayCall, hsame]
  exact ⟨hmem, h.2⟩

/-- The first subscriber fetched may be called. -/
theorem Proc.InFlight.mayCall_head (hsubs : SubsRepresented pm subsOf) (h : p.InFlight pm)
    {b : ℕ} (hhead : (pm.nodes p.pnode).subCallbacks.head = some b) :
    { p with fetched := pm.epoch }.MayCall pm b := by
  have hmem : b ∈ subsOf p.pnode := by
    rw [(hsubs.holds p.pnode).head_eq] at hhead
    exact List.mem_of_mem_head? hhead
  refine ⟨hsubs.allocated _ b hmem, ?_⟩
  rw [hsubs.attached _ b hmem]
  constructor
  · intro hattached
    -- a slot without a registration has no attached blocks
    by_cases hlt : p.pnode < pm.handleCounter
    · rw [registrationAt_of_lt hlt] at hattached
      exact congrArg Registration.epoch (Option.some.inj hattached)
    · rw [registrationAt_of_le (not_lt.mp hlt)] at hattached
      cases hattached
  · intro (hepoch : pm.epoch = p.under.epoch)
    rw [registrationAt_of_lt (h.registered hepoch), hepoch, ← h.handle]

theorem doneEvents_identified (slot : ℕ) (next : Option ℕ) :
    ∀ e ∈ doneEvents slot next, e.Identified := by
  intro e he
  unfold doneEvents at he
  split at he
  · rw [List.mem_singleton.mp he]
    trivial
  · cases he

/-- **A step inside a chain** calls at most one callback, and that one is
identified exactly if the record read is the right one. -/
theorem ChainMove.identified (h : ChainInvariant P s) (hproc : s.proc = some p)
    (hin : p.pc.InChain) (hmove : ChainMove s p inp s') :
    ∃ events, s'.log = s.log ++ events ∧
      ((∀ e ∈ events, e.Identified) ↔ p.ReadsOwnRecord s.pm) := by
  obtain ⟨regs, l, hrep⟩ := h.registry
  obtain ⟨subsOf, hsubs⟩ := h.subscribers
  have hflight := h.inFlight p hproc hin
  have hhandle : (s.pm.nodes p.pnode).handle = p.under.handle ↔ p.HandleKept s.pm := by
    rw [hflight.handle]
    exact handle_eq_iff hrep hsubs p.pnode
  have hquiet : p.ReadsOwnRecord s.pm → ∃ events, s.log = s.log ++ events ∧
      ((∀ e ∈ events, e.Identified) ↔ p.ReadsOwnRecord s.pm) :=
    fun hreads => ⟨[], (List.append_nil _).symm, iff_of_true (by simp) hreads⟩
  cases hmove with
  | skip hpc hnone => exact hquiet (by simp [Proc.ReadsOwnRecord, hpc, hnone])
  | nullError hpc hnone => exact hquiet (by simp [Proc.ReadsOwnRecord, hpc, hnone])
  | skipSub hpc hnone => exact hquiet (by simp [Proc.ReadsOwnRecord, hpc, hnone])
  | call hpc f hsome rc mes _ =>
      refine ⟨_, rfl, ?_⟩
      simp [Proc.ReadsOwnRecord, hpc, hsome, Event.Identified, hhandle]
  | error hpc e hsome mes =>
      refine ⟨_, rfl, ?_⟩
      simp [Proc.ReadsOwnRecord, hpc, hsome, Event.Identified, hhandle]
  | @callSub entry subsTmp hpc f hsome mes =>
      have hcall := (hflight.subscribers entry (by simp [hpc, Pc.StandsAt])).2
      refine ⟨_, rfl, ?_⟩
      simp [Proc.ReadsOwnRecord, hpc, hsome, Event.Identified, hcall]
  | fetch hpc | nextSub hpc =>
      exact ⟨_, rfl, iff_of_true (doneEvents_identified _ _) (by simp [Proc.ReadsOwnRecord, hpc])⟩

/-- The subscriber loop goes on at a block that may be called. -/
theorem inFlight_goOnSubs (hsubs : SubsRepresented pm subsOf) (h : p.InFlight pm)
    {next : Option ℕ} (hnext : ∀ b, next = some b → p.MayCall pm b) :
    (p.goOnSubs pm.subSnode next).InFlight pm := by
  cases next with
  | none => exact ⟨h.handle, h.epoch_le, h.registered, fun b hb => absurd hb id⟩
  | some e =>
      refine ⟨h.handle, h.epoch_le, h.registered, fun b hb => ?_⟩
      have he : p.MayCall pm e := hnext e rfl
      rcases hb with rfl | hb
      · exact he
      · exact he.next hsubs hb

/-- A thread that stands at no block is in flight if it is in the same visit. -/
theorem Proc.InFlight.of_quiet {q : Proc Ω} (h : p.InFlight pm) (hunder : q.under = p.under)
    (hpnode : q.pnode = p.pnode) (hquiet : ∀ b, ¬q.pc.StandsAt b) : q.InFlight pm := by
  refine ⟨?_, ?_, ?_, fun b hb => absurd hb (hquiet b)⟩
  · rw [hunder, hpnode]
    exact h.handle
  · rw [hunder]
    exact h.epoch_le
  · rw [hunder, hpnode]
    exact h.registered

theorem afterPhase_not_standsAt (phase : Phase) (inst : ℕ) (n : StepNode Ω)
    (next : List (StepNode Ω)) (b : ℕ) : ¬(afterPhase phase inst n next).StandsAt b := by
  cases phase with
  | start => exact id
  | exec => exact id
  | stop => cases next <;> exact id

/-- A step inside a chain keeps the invariant of the chain in flight. -/
theorem ChainMove.inFlight (h : ChainInvariant P s) (hproc : s.proc = some p)
    (hin : p.pc.InChain) (hmove : ChainMove s p inp s') {p' : Proc Ω}
    (hproc' : s'.proc = some p') : p'.InFlight s'.pm := by
  obtain ⟨subsOf, hsubs⟩ := h.subscribers
  have hflight := h.inFlight p hproc hin
  cases hmove with
  | nullError _ _ =>
      obtain rfl := Option.some.inj (hproc.symm.trans hproc')
      exact hflight
  | skip hpc _ | error hpc _ _ _ =>
      obtain rfl := Option.some.inj hproc'
      exact hflight.of_quiet rfl rfl (afterPhase_not_standsAt _ _ _ _)
  | call hpc f _ rc mes _ =>
      obtain rfl := Option.some.inj hproc'
      refine hflight.of_quiet rfl rfl fun b => ?_
      dsimp only
      split
      · exact afterPhase_not_standsAt _ _ _ _ b
      · exact id
  | fetch hpc =>
      obtain rfl := Option.some.inj hproc'
      have hfetched : ({ p with fetched := s.pm.epoch } : Proc Ω).InFlight s.pm :=
        hflight.of_quiet rfl rfl fun b hb => by simp [hpc, Pc.StandsAt] at hb
      exact inFlight_goOnSubs hsubs hfetched fun b hb => hflight.mayCall_head hsubs hb
  | skipSub hpc _ | callSub hpc _ _ _ =>
      obtain rfl := Option.some.inj hproc'
      exact ⟨hflight.handle, hflight.epoch_le, hflight.registered,
        fun b hb => hflight.subscribers b (by rw [hpc]; exact Or.inr hb)⟩
  | nextSub hpc =>
      obtain rfl := Option.some.inj hproc'
      exact inFlight_goOnSubs hsubs hflight
        fun b hb => hflight.subscribers b (by rw [hpc]; exact hb)

theorem Proc.InFlight.of_sameRegistry (h : p.InFlight pm) (hsame : pm.SameRegistry pm') :
    p.InFlight pm' := by
  refine ⟨h.handle, hsame.epoch ▸ h.epoch_le, fun hepoch => ?_, fun b hb => ?_⟩
  · rw [hsame.handleCounter]
    exact h.registered (hsame.epoch ▸ hepoch)
  · rw [Proc.MayCall, hsame.subAllocated, hsame.subs]
    exact h.subscribers b hb

/-- A chain is entered on a slot that holds a registration. -/
theorem inFlight_enter (hrep : Represents P pm regs l) (hsubs : SubsRepresented pm subsOf)
    {chain : StepNodeChain Ω} (hchain : (pm.nodes p.pnode).node = some chain) {q : Proc Ω}
    (hunder : q.under = ⟨(pm.nodes p.pnode).handle, pm.epoch⟩) (hpnode : q.pnode = p.pnode)
    (hquiet : ∀ b, ¬q.pc.StandsAt b) : q.InFlight pm := by
  have hlt : p.pnode < pm.handleCounter := by
    by_contra hge
    rw [(hsubs.wiped _ (not_lt.mp hge)).2] at hchain
    cases hchain
  refine ⟨?_, ?_, fun _ => ?_, fun b hb => absurd hb (hquiet b)⟩
  · rw [hunder, hpnode]
    exact (handle_eq_iff hrep hsubs _).mpr (Or.inr hlt)
  · rw [hunder]
  · rw [hpnode]
    exact hlt

/-- **The step lemma of the chain in flight.** -/
theorem sysStep_chainInvariant {label : Label Ω} (h : ChainInvariant P s)
    (hstep : sysStep P s label = some s') : ChainInvariant P s' := by
  obtain ⟨regs, l, hrep⟩ := h.registry
  obtain ⟨subsOf, hsubs⟩ := h.subscribers
  obtain ⟨hfault, hmove⟩ := sysStep_move hstep
  cases hmove with
  | process mesAddr mes free hproc =>
      refine ⟨h.registry, h.subscribers, fun p' hp' hin => ?_⟩
      obtain rfl := Option.some.inj hp'
      exact absurd hin id
  | other t c ht hlocks hheap =>
      obtain ⟨l', hrep', -⟩ := apiCall_represents hrep c
      exact ⟨⟨_, l', hrep'⟩, apiCall_subsRepresented hsubs hrep.counter_le hheap,
        fun p' hp' hin => (h.inFlight p' hp' hin).apiCall hrep.counter_le hheap⟩
  | @proc inp p _ hproc hmove =>
      have hsame := hmove.sameRegistry
      refine ⟨⟨regs, l, hrep.of_sameRegistry hsame⟩, ⟨subsOf, hsubs.of_sameRegistry hsame⟩,
        fun p' hp' hin' => ?_⟩
      by_cases hin : p.pc.InChain
      · have hchain := procStep_chainMove hin (procStep_of_sysStep hstep hproc)
        exact hchain.inFlight h hproc hin hp'
      · obtain ⟨chain, hchain, hpnode, hunder, hpc⟩ := hmove.enter_of_inChain hproc hin hp' hin'
        refine (inFlight_enter hrep hsubs hchain hunder hpnode fun b hb => ?_).of_sameRegistry hsame
        rw [hpc] at hb
        exact hb

/-- Outside a chain no callback of a chain is called. -/
theorem ProcMove.identified (hmove : ProcMove P s p inp s') (hin : ¬p.pc.InChain) :
    ∃ events, s'.log = s.log ++ events ∧ ∀ e ∈ events, e.Identified := by
  have hnil : ∃ events, s.log = s.log ++ events ∧ ∀ e ∈ events, e.Identified :=
    ⟨[], (List.append_nil _).symm, by simp⟩
  have heval : ∀ {v : Verdict} {cache : StepCache},
      lookupVerdict P s.pm.cache (s.pm.nodes p.pnode) p.mes p.mesAddr p.rc inp =
        .ok (v, cache) → ∀ e ∈ v.events, e.Identified := by
    intro v cache hv e he
    have hkind := lookupVerdict_events hv e he
    cases e <;> trivial
  have hone : ∀ e : Event, e.Identified → ∀ e' ∈ [e], e'.Identified :=
    fun e he => List.forall_mem_singleton.mpr he
  -- the decisions of the loop body name no callback
  have hvisit : ∀ {v : Verdict} {cache : StepCache},
      lookupVerdict P s.pm.cache (s.pm.nodes p.pnode) p.mes p.mesAddr p.rc inp =
        .ok (v, cache) →
      ∀ e ∈ Event.visit p.pnode true :: v.events ++ [.verdict p.pnode v.value], e.Identified := by
    intro v cache hv
    rw [List.forall_mem_append, List.forall_mem_cons]
    exact ⟨⟨trivial, heval hv⟩, hone _ trivial⟩
  cases hmove with
  | crash _ | lock _ _ _ | head _ | relock _ _ _ => exact hnil
  | skip _ _ => exact ⟨_, rfl, hone _ trivial⟩
  | noMatch _ _ v cache hv _ => exact ⟨_, rfl, hvisit hv⟩
  | enter _ _ v cache chain hv _ _ =>
      refine ⟨_, List.append_assoc _ _ _, ?_⟩
      exact List.forall_mem_append.mpr ⟨hvisit hv, hone _ trivial⟩
  | chain hpc _ _ _ _ _ => exact absurd hpc hin
  | chainDone hpc _ _ _ => exact absurd hpc hin
  | tail _ =>
      refine ⟨_, rfl, ?_⟩
      cases p.free <;> simp [Event.Identified]

theorem Proc.readsOwnRecord_of_not_inChain (hin : ¬p.pc.InChain) : p.ReadsOwnRecord pm := by
  rw [Proc.ReadsOwnRecord]
  cases hpc : p.pc with
  | lock | head | visit | relock | tail => trivial
  | _ => exact absurd (hpc ▸ trivial) hin

/-- **The step lemma of callback identity**: the callbacks called so far stay
identified exactly if the step meets the condition. -/
theorem sysStep_identified {label : Label Ω} (h : ChainInvariant P s)
    (hstep : sysStep P s label = some s') :
    (∀ e ∈ s'.log, e.Identified) ↔ (∀ e ∈ s.log, e.Identified) ∧ ReadsOwnRecord s label := by
  have hsplit : ∀ {events : List Event}, s'.log = s.log ++ events →
      ((∀ e ∈ events, e.Identified) ↔ ReadsOwnRecord s label) →
      ((∀ e ∈ s'.log, e.Identified) ↔
        (∀ e ∈ s.log, e.Identified) ∧ ReadsOwnRecord s label) := by
    intro events hlog hiff
    rw [hlog, List.forall_mem_append, hiff]
  obtain ⟨hfault, hmove⟩ := sysStep_move hstep
  cases hmove with
  | process mesAddr mes free hproc =>
      exact hsplit (List.append_nil _).symm (iff_of_true (by simp) trivial)
  | other t c ht hlocks hheap =>
      refine hsplit rfl (iff_of_true (fun e he => ?_) trivial)
      have hinit := apiCall_events P s.pm c e he
      cases e <;> trivial
  | @proc inp p _ hproc hmove =>
      have hreads : ReadsOwnRecord s (.proc inp) ↔ p.ReadsOwnRecord s.pm := by
        rw [ReadsOwnRecord, hproc]
      by_cases hin : p.pc.InChain
      · have hchain := procStep_chainMove hin (procStep_of_sysStep hstep hproc)
        obtain ⟨events, hlog, hiff⟩ := hchain.identified h hproc hin
        exact hsplit hlog (hiff.trans hreads.symm)
      · obtain ⟨events, hlog, hall⟩ := hmove.identified hin
        exact hsplit hlog
          (iff_of_true hall (hreads.mpr (Proc.readsOwnRecord_of_not_inChain hin)))

end Invariant

/-! ### Whole runs -/

/-- **Callback identity, exactly.**  In a run from start-up, whatever the other
threads do while `step_pm_process` has released the lock, every handler is called
with the handle its chain was matched under and every subscriber called was
subscribed to that registration, if and only if every step meets the condition. -/
theorem callbacks_identified_iff (P : Platform) {labels : List (Label Ω)} {s : Sys Ω}
    (hrun : run (sysStep P) (Sys.init P) labels = some s) :
    (∀ e ∈ s.log, e.Identified) ↔ Meets (sysStep P) ReadsOwnRecord (Sys.init P) labels := by
  have hlift := holds_iff_meets (Q := fun s : Sys Ω => ∀ e ∈ s.log, e.Identified)
    (fun _ _ _ hI hstep => sysStep_chainInvariant hI hstep)
    (fun _ _ _ hI hstep => sysStep_identified hI hstep) (chainInvariant_init P) hrun
  rw [hlift]
  exact and_iff_right (by simp [Sys.init])

/-! ### Clears that do no harm -/

/-- Behind the match and before the first subscriber is fetched. -/
def Pc.BeforeSubscribers : Pc Ω → Prop
  | .call _ _ _ _ | .error _ _ _ _ _ | .subsHead => True
  | _ => False

/-- No clear lands between a match and the fetch of the first subscriber. -/
def NoClearInChain (s : Sys Ω) : Label Ω → Prop
  | .other _ .clear => ∀ p, s.proc = some p → ¬p.pc.BeforeSubscribers
  | _ => True

/-- The registry has not been cleared since the match, or had not been when the
subscribers were fetched. -/
structure Proc.Unreset (pm : PmState Ω) (p : Proc Ω) : Prop where
  before : p.pc.BeforeSubscribers → pm.epoch = p.under.epoch
  behind : ∀ b, p.pc.StandsAt b → p.fetched = p.under.epoch

section Unreset

variable {P : Platform} {s s' : Sys Ω} {p p' : Proc Ω} {inp : Inputs Ω}

/-- Before the subscribers the thread stands at none of them. -/
theorem Pc.BeforeSubscribers.not_standsAt {pc : Pc Ω} (h : pc.BeforeSubscribers) {b : ℕ} :
    ¬pc.StandsAt b := by
  cases pc with
  | call _ _ _ _ | error _ _ _ _ _ | subsHead => exact id
  | _ => exact absurd h id

theorem readsOwnRecord_of_unreset (hflight : p.InFlight s.pm) (h : p.Unreset s.pm) :
    p.ReadsOwnRecord s.pm := by
  have hkept : p.pc.BeforeSubscribers → p.HandleKept s.pm := fun hpc =>
    Or.inr (hflight.registered (h.before hpc))
  rw [Proc.ReadsOwnRecord]
  cases hpc : p.pc with
  | call phase inst n next => exact fun _ => hkept (by rw [hpc]; trivial)
  | error phase inst n next code => exact fun _ => hkept (by rw [hpc]; trivial)
  | subs entry subsTmp => exact fun _ => h.behind entry (by rw [hpc]; exact Or.inl rfl)
  | _ => trivial

theorem afterPhase_beforeSubscribers (phase : Phase) (inst : ℕ) (n : StepNode Ω)
    (next : List (StepNode Ω)) : (afterPhase phase inst n next).BeforeSubscribers := by
  cases phase with
  | start => trivial
  | exec => trivial
  | stop => cases next <;> trivial

theorem Proc.goOnSubs_unreset {pm : PmState Ω} {subSnode : Links ℕ} {next : Option ℕ}
    (h : ∀ b, next = some b → p.fetched = p.under.epoch) :
    (p.goOnSubs subSnode next).Unreset pm := by
  cases next with
  | none => exact ⟨fun hpc => absurd hpc id, fun b hb => absurd hb id⟩
  | some e => exact ⟨fun hpc => absurd hpc id, fun _ _ => h e rfl⟩

theorem ChainMove.unreset (h : p.Unreset s.pm) (hproc : s.proc = some p)
    (hmove : ChainMove s p inp s') (hproc' : s'.proc = some p') : p'.Unreset s'.pm := by
  have hbefore : ∀ {q : Proc Ω}, p.pc.BeforeSubscribers → q.under = p.under →
      q.pc.BeforeSubscribers → q.Unreset s.pm := by
    intro q hpc hunder hqpc
    refine ⟨fun _ => by rw [hunder]; exact h.before hpc, fun b hb => ?_⟩
    exact absurd hb hqpc.not_standsAt
  cases hmove with
  | nullError _ _ =>
      obtain rfl := Option.some.inj (hproc.symm.trans hproc')
      exact h
  | skip hpc _ | error hpc _ _ _ =>
      obtain rfl := Option.some.inj hproc'
      exact hbefore (by rw [hpc]; trivial) rfl (afterPhase_beforeSubscribers _ _ _ _)
  | call hpc f _ rc mes _ =>
      obtain rfl := Option.some.inj hproc'
      refine hbefore (by rw [hpc]; trivial) rfl ?_
      dsimp only
      split
      · exact afterPhase_beforeSubscribers _ _ _ _
      · trivial
  | fetch hpc =>
      obtain rfl := Option.some.inj hproc'
      exact Proc.goOnSubs_unreset fun _ _ => h.before (by rw [hpc]; trivial)
  | skipSub hpc _ | callSub hpc _ _ _ =>
      obtain rfl := Option.some.inj hproc'
      exact ⟨fun hq => absurd hq id, fun b hb => h.behind b (by rw [hpc]; exact Or.inr hb)⟩
  | nextSub hpc =>
      obtain rfl := Option.some.inj hproc'
      exact Proc.goOnSubs_unreset fun b hb => h.behind b (by rw [hpc]; exact hb)

/-- Everything but a clear keeps the epoch. -/
theorem apiCall_epoch_of_ne_clear {pm : PmState Ω} (hle : pm.handleCounter ≤ P.nodeLimit)
    {c : ApiCall Ω} (hc : c ≠ .clear) : (apiCall P pm c).pm.epoch = pm.epoch := by
  have hstep := apiCall_registryStep hle c
  generalize (apiCall P pm c).pm = pm' at hstep
  cases hstep with
  | same _ _ _ _ hepoch _ _ _ => exact hepoch
  | clear => exact absurd rfl hc
  | add _ _ _ _ => rfl

theorem sysStep_unreset {label : Label Ω} (hinv : ChainInvariant P s)
    (h : ∀ p, s.proc = some p → p.pc.InChain → p.Unreset s.pm)
    (hlabel : NoClearInChain s label) (hstep : sysStep P s label = some s') :
    ∀ p, s'.proc = some p → p.pc.InChain → p.Unreset s'.pm := by
  intro p' hp' hin'
  obtain ⟨regs, l, hrep⟩ := hinv.registry
  obtain ⟨-, hmove⟩ := sysStep_move hstep
  cases hmove with
  | process mesAddr mes free hproc =>
      obtain rfl := Option.some.inj hp'
      exact absurd hin' id
  | other t c ht hlocks hheap =>
      have hold := h p' hp' hin'
      refine ⟨fun hpc => ?_, hold.behind⟩
      have hc : c ≠ .clear := by
        rintro rfl
        exact hlabel p' hp' hpc
      exact (apiCall_epoch_of_ne_clear hrep.counter_le hc).trans (hold.before hpc)
  | @proc inp p _ hproc hmove =>
      by_cases hin : p.pc.InChain
      · have hchain := procStep_chainMove hin (procStep_of_sysStep hstep hproc)
        exact hchain.unreset (h p hproc hin) hproc hp'
      · obtain ⟨chain, -, -, hunder, hpc⟩ := hmove.enter_of_inChain hproc hin hp' hin'
        rw [← hmove.sameRegistry.epoch] at hunder
        refine ⟨fun _ => by rw [hunder], fun b hb => ?_⟩
        rw [hpc] at hb
        exact absurd hb id

theorem readsOwnRecord_step {label : Label Ω} (hinv : ChainInvariant P s)
    (h : ∀ p, s.proc = some p → p.pc.InChain → p.Unreset s.pm) : ReadsOwnRecord s label := by
  cases label with
  | process _ _ _ => trivial
  | other _ _ => trivial
  | proc inp =>
      rw [ReadsOwnRecord]
      cases hproc : s.proc with
      | none => trivial
      | some p =>
          by_cases hin : p.pc.InChain
          · exact readsOwnRecord_of_unreset (hinv.inFlight p hproc hin) (h p hproc hin)
          · exact Proc.readsOwnRecord_of_not_inChain hin

/-- What holds in a run without clears in the wrong place. -/
structure UnresetRun (P : Platform) (s : Sys Ω) : Prop where
  chain : ChainInvariant P s
  unreset : ∀ p, s.proc = some p → p.pc.InChain → p.Unreset s.pm
  identified : ∀ e ∈ s.log, e.Identified

/-- **Clears elsewhere do no harm**: if no clear lands between the match of a chain
and the fetch of its first subscriber, all its callbacks are identified. -/
theorem callbacks_identified_of_no_clear {labels : List (Label Ω)}
    (hclear : Meets (sysStep P) NoClearInChain (Sys.init P) labels)
    (hrun : run (sysStep P) (Sys.init P) labels = some s) :
    ∀ e ∈ s.log, e.Identified := by
  have hinit : UnresetRun P (Sys.init P : Sys Ω) :=
    ⟨chainInvariant_init P, fun _ hp => (by cases hp), by simp [Sys.init]⟩
  have hend : UnresetRun P s :=
    run_invariant (fun s label s' (h : UnresetRun P s) hlabel hstep =>
      ⟨sysStep_chainInvariant h.chain hstep, sysStep_unreset h.chain h.unreset hlabel hstep,
        (sysStep_identified h.chain hstep).mpr
          ⟨h.identified, readsOwnRecord_step h.chain h.unreset⟩⟩) hinit hclear hrun
  exact hend.identified

end Unreset

/-! ### A clear in between -/

/-- A chain of one node whose exec handler does nothing. -/
def workingChain : StepNodeChain Unit :=
  ⟨⟨.catchAll, { StepNodeCallbacks.none with
    execHandler := some ⟨100, fun _ mes _ _ => (0, mes)⟩ }, 0⟩, []⟩

/-- A run in which the chain registered as handle 1 is matched, and the registry is
cleared before its exec handler is called. -/
def clearInChain : List (Label Unit) :=
  let tick : Label Unit := .proc ⟨(), (), 1, 0#32⟩
  [.other 1 (.register silentChain 1 fun _ => ()),
    .other 1 (.register workingChain 7 fun _ => ()),
    .process 64 ⟨⟨0#32, 0#32, 0#32⟩, []⟩ false, tick, tick, tick, .other 1 .clear, tick, tick]

/-- **A stale handle**: the exec handler of the chain matched under handle 1 is
called with handle 0. -/
theorem stale_handle :
    ∃ s, run (sysStep Platform.tests) (Sys.init Platform.tests) clearInChain = some s ∧
      Event.handler .exec 100 64 0 0 0 ⟨1, 0⟩ ∈ s.log ∧
      ¬(Event.handler .exec 100 64 0 0 0 ⟨1, 0⟩).Identified :=
  ⟨_, rfl, by decide, by decide⟩

/-- The same run without the clear. -/
theorem callbacks_identified_iff_without_clear :
    ∃ s, run (sysStep Platform.tests) (Sys.init Platform.tests)
        (clearInChain.take 6 ++ clearInChain.drop 7) = some s ∧
      ((∀ e ∈ s.log, e.Identified) ↔
        Meets (sysStep Platform.tests) ReadsOwnRecord (Sys.init Platform.tests)
          (clearInChain.take 6 ++ clearInChain.drop 7)) :=
  ⟨_, rfl, callbacks_identified_iff Platform.tests rfl⟩

end StepPipeline
