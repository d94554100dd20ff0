import StepPipeline.ChainTrace
import StepPipeline.HandleValidity

/-!
# What a callback finds under its own handle

A callback receives the handle and the instance number of the node it belongs to, and looks the
node up again with `step_pm_node_get(handle, inst)`, to get at its configuration; around it no
lock is held.

* `Pc.CallsOf` — the dispatch stands at a handler of a node;
* `Proc.AtNode` — **the invariant**: unless the registry has been cleared since the match, the
  slot of the chain in flight still holds the chain, and the dispatch stands at the place in it
  that its instance number says;
* `callback_lookup` — hence the lookup finds the very node; after a clear it finds a node of
  whatever chain has been registered in the meantime, or nothing, or follows a NULL pointer.

## What makes the lookup safe, and what does not

A callback is called with the registry unlocked, and `step_pm_node_get` takes no lock either.  Its
check against the handle counter is made on whatever the counter is by then.  While no clear comes
in, the slot of the chain is never written again: registrations go to later slots, and
subscriptions, enabled flags and counters are other fields.  That is the whole argument, and it
ends with the first clear; behind one the theorem lists what may be found instead.
-/

namespace StepPipeline

open IntrusiveList LabelledRun

variable {Ω : Type}

/-- A handler of `n`, or its error handler, is about to be called, with instance number
`inst`. -/
def Pc.CallsOf (pc : Pc Ω) (n : StepNode Ω) (inst : ℕ) : Prop :=
  match pc with
  | .call _ i m _ | .error _ i m _ _ => m = n ∧ i = inst
  | _ => False

/-- The dispatch stands at the place in the chain of its slot that its instance number says.  The
nodes still to come are a suffix of the chain, and `drop` says which one. -/
def Proc.AtNode (pm : PmState Ω) (p : Proc Ω) : Prop :=
  match p.pc with
  | .call _ inst n next | .error _ inst n next _ =>
      ∃ chain, (pm.nodes p.pnode).node = some chain ∧
        (chain.head :: chain.rest).drop inst = n :: next
  | _ => True

/-- **The invariant of lookups**: unless the registry has been cleared since the match, the
dispatch stands where its instance number says. -/
structure LookupInvariant (P : Platform) (s : Sys Ω) : Prop where
  chain : ChainInvariant P s
  atNode : ∀ p, s.proc = some p → s.pm.epoch = p.under.epoch → p.AtNode s.pm

section Invariant

variable {P : Platform} {s s' : Sys Ω} {p p' : Proc Ω} {inp : Inputs Ω} {pm pm' : PmState Ω}

theorem Proc.AtNode.of_node (h : p.AtNode pm) (hnode : (pm'.nodes p.pnode).node =
    (pm.nodes p.pnode).node) : p.AtNode pm' := by
  rw [Proc.AtNode] at h ⊢
  cases hpc : p.pc with
  | call phase inst n next =>
      rw [hpc] at h
      exact hnode ▸ h
  | error phase inst n next code =>
      rw [hpc] at h
      exact hnode ▸ h
  | _ => trivial

theorem Proc.atNode_of_not_inChain (hin : ¬p.pc.InChain) : p.AtNode pm := by
  rw [Proc.AtNode]
  cases hpc : p.pc with
  | call | error => exact absurd (hpc ▸ trivial) hin
  | _ => trivial

/-- Behind a handler the dispatch goes on with the same node, or with the next one. -/
theorem atNode_afterPhase {chain : StepNodeChain Ω} {phase : Phase} {inst : ℕ} {n : StepNode Ω}
    {next : List (StepNode Ω)} (hchain : (pm.nodes p.pnode).node = some chain)
    (hdrop : (chain.head :: chain.rest).drop inst = n :: next)
    (hpc : p.pc = afterPhase phase inst n next) : p.AtNode pm := by
  have hnext : (chain.head :: chain.rest).drop (inst + 1) = next := by
    rw [← List.drop_drop, hdrop]
    rfl
  cases phase with
  | start | exec =>
      simp only [Proc.AtNode, hpc, afterPhase]
      exact ⟨chain, hchain, hdrop⟩
  | stop =>
      cases next with
      | nil => simp only [Proc.AtNode, hpc, afterPhase]
      | cons m ms =>
          simp only [Proc.AtNode, hpc, afterPhase]
          exact ⟨chain, hchain, hnext⟩

/-- The subscriber loop stands at no node. -/
theorem atNode_goOnSubs (q : Proc Ω) (subSnode : Links ℕ) (next : Option ℕ) :
    (q.goOnSubs subSnode next).AtNode pm := by
  cases next <;> trivial

/-- A step inside a chain leaves the dispatch where its instance number says. -/
theorem ChainMove.atNode (hmove : ChainMove s p inp s') (hproc : s.proc = some p)
    (hproc' : s'.proc = some p') (h : p.AtNode s.pm) : p'.AtNode s'.pm := by
  cases hmove with
  | nullError _ _ =>
      obtain rfl := Option.some.inj (hproc.symm.trans hproc')
      exact h
  | skip hpc _ | error hpc _ _ _ =>
      obtain rfl := Option.some.inj hproc'
      rw [Proc.AtNode, hpc] at h
      obtain ⟨chain, hchain, hdrop⟩ := h
      exact atNode_afterPhase hchain hdrop rfl
  | @call phase inst n next hpc f _ rc mes _ =>
      obtain rfl := Option.some.inj hproc'
      rw [Proc.AtNode, hpc] at h
      obtain ⟨chain, hchain, hdrop⟩ := h
      by_cases hrc : rc = 0
      · exact atNode_afterPhase hchain hdrop (if_pos hrc)
      · simp only [Proc.AtNode, if_neg hrc]
        exact ⟨chain, hchain, hdrop⟩
  | fetch _ | nextSub _ =>
      obtain rfl := Option.some.inj hproc'
      exact atNode_goOnSubs ..
  | skipSub _ _ | callSub _ _ _ _ =>
      obtain rfl := Option.some.inj hproc'
      trivial

/-- A step inside a chain stays under its registration. -/
theorem ChainMove.under_eq (hmove : ChainMove s p inp s') (hproc : s.proc = some p)
    (hproc' : s'.proc = some p') : p'.under = p.under := by
  cases hmove with
  | nullError _ _ => exact congrArg Proc.under (Option.some.inj (hproc'.symm.trans hproc))
  | fetch _ =>
      obtain rfl := Option.some.inj hproc'
      exact (p.goOnSubs_sameVisit s.pm.epoch _ _).under
  | nextSub _ =>
      obtain rfl := Option.some.inj hproc'
      exact (p.goOnSubs_sameVisit p.fetched _ _).under
  | _ =>
      obtain rfl := Option.some.inj hproc'
      rfl

/-- **The chain of a registration in force stays in its slot**, whatever is called short of a
clear. -/
theorem apiCall_node {regs : List (StepNodeChain Ω × ℕ)} {l : List ℕ}
    (hrep : Represents P pm regs l) {c : ApiCall Ω} {i : ℕ} (hi : i < pm.handleCounter)
    (hepoch : (apiCall P pm c).pm.epoch = pm.epoch) :
    ((apiCall P pm c).pm.nodes i).node = (pm.nodes i).node := by
  have hstep := apiCall_registryStep hrep.counter_le c
  generalize (apiCall P pm c).pm = pm' at hstep hepoch
  cases hstep with
  | same _ _ _ _ _ _ hrecord _ => exact (hrecord i).2.1
  | clear => exact absurd hepoch (Nat.succ_ne_self _)
  | add node pri _ _ =>
      show (Function.update pm.nodes pm.handleCounter _ i).node = (pm.nodes i).node
      rw [Function.update_of_ne hi.ne]

/-- **The step lemma of lookups.** -/
theorem sysStep_lookupInvariant {label : Label Ω} (h : LookupInvariant P s)
    (hstep : sysStep P s label = some s') : LookupInvariant P s' := by
  refine ⟨sysStep_chainInvariant h.chain hstep, fun p' hp' hepoch => ?_⟩
  by_cases hin' : p'.pc.InChain
  · obtain ⟨regs, l, hrep⟩ := h.chain.registry
    obtain ⟨-, hmove⟩ := sysStep_move hstep
    cases hmove with
    | process mesAddr mes free _ =>
        obtain rfl := Option.some.inj hp'
        exact absurd hin' id
    | other t c _ _ _ =>
        -- the call before which the registry was cleared is not the last one
        have hflight := h.chain.inFlight p' hp' hin'
        have hle := (apiCall_epoch hrep.counter_le c).1
        have hsame : (apiCall P s.pm c).pm.epoch = s.pm.epoch := by
          have hle' := hflight.epoch_le
          change (apiCall P s.pm c).pm.epoch = p'.under.epoch at hepoch
          omega
        have hbefore : s.pm.epoch = p'.under.epoch := hsame.symm.trans hepoch
        exact (h.atNode p' hp' hbefore).of_node
          (apiCall_node hrep (hflight.registered hbefore) hsame)
    | @proc inp p _ hproc hmove =>
        have hsame := hmove.sameRegistry
        by_cases hin : p.pc.InChain
        · have hchain := procStep_chainMove hin (procStep_of_sysStep hstep hproc)
          refine hchain.atNode hproc hp' (h.atNode p hproc ?_)
          rw [← hsame.epoch, hepoch, hchain.under_eq hproc hp']
        · obtain ⟨chain, hchain, hpnode, -, hpc⟩ := hmove.enter_of_inChain hproc hin hp' hin'
          simp only [Proc.AtNode, hpc]
          exact ⟨chain, by rw [hpnode, hsame.node, hchain], rfl⟩
  · exact Proc.atNode_of_not_inChain hin'

theorem lookupInvariant_of_run {labels : List (Label Ω)}
    (hrun : run (sysStep P) (Sys.init P) labels = some s) : LookupInvariant P s :=
  run_preserves (fun _ _ _ hI hstep => sysStep_lookupInvariant hI hstep)
    ⟨chainInvariant_init P, fun _ h => by cases h⟩ hrun

end Invariant

/-! ### What the lookup finds -/

section Lookup

variable {P : Platform} {s : Sys Ω} {p : Proc Ω} {labels : List (Label Ω)} {n : StepNode Ω}
  {inst : ℕ}

/-- A lookup under the handle of a registration finds the nodes of its chain. -/
theorem stepPmNodeGet_of_lt {pm : PmState Ω} {regs : List (StepNodeChain Ω × ℕ)} {l : List ℕ}
    (hrep : Represents P pm regs l) {handle : ℕ} (hlt : handle < pm.handleCounter) :
    ∃ chain, (pm.nodes handle).node = some chain ∧
      stepPmNodeGet P pm handle inst = .ok (chain.head :: chain.rest)[inst]? := by
  have hlt' : handle < regs.length := hrep.counter_eq ▸ hlt
  have hlimit := hrep.length_le
  obtain ⟨-, hnode, -⟩ := hrep.slot handle _ (List.getElem?_eq_getElem hlt')
  refine ⟨_, hnode, ?_⟩
  rw [stepPmNodeGet, if_neg (by omega), if_neg (by omega), hnode]
  exact congrArg Except.ok (nodeAt_eq _ _ _)

/-- **A callback looks itself up.**  In every run from start-up, whatever the other threads
call, when a handler of a chain or its error handler is about to be called: unless the registry
has been cleared since the match, `step_pm_node_get`, with the handle and the instance number
the handler receives, finds the very node it belongs to; as long as anything is registered it
finds a node of the chain registered at this handle, or NULL behind its end; and right after a
clear it returns NULL for the first node of a chain and follows a NULL pointer for the
others. -/
theorem callback_lookup (hrun : run (sysStep P) (Sys.init P) labels = some s)
    (hproc : s.proc = some p) (hpc : p.pc.CallsOf n inst) :
    let handle := (s.pm.nodes p.pnode).handle
    (s.pm.epoch = p.under.epoch → stepPmNodeGet P s.pm handle inst = .ok (some n)) ∧
      (0 < s.pm.handleCounter → ∃ chain, (s.pm.nodes handle).node = some chain ∧
        stepPmNodeGet P s.pm handle inst = .ok (chain.head :: chain.rest)[inst]?) ∧
      (s.pm.handleCounter = 0 →
        stepPmNodeGet P s.pm handle inst =
          if inst = 0 then .ok none else .error .nullDeref) := by
  intro handle
  have h := lookupInvariant_of_run hrun
  obtain ⟨regs, l, hrep⟩ := h.chain.registry
  obtain ⟨subsOf, hsubs⟩ := h.chain.subscribers
  have hin : p.pc.InChain := by
    cases hp : p.pc with
    | call | error => trivial
    | _ => exact absurd hpc (by simp [hp, Pc.CallsOf])
  have hflight := h.chain.inFlight p hproc hin
  -- the handle read is that of the slot, or that of a wiped record
  have hhandle : p.pnode < s.pm.handleCounter ∧ handle = p.pnode ∨
      s.pm.handleCounter ≤ p.pnode ∧ handle = 0 := by
    rcases lt_or_ge p.pnode s.pm.handleCounter with hlt | hge
    · exact .inl ⟨hlt, (handle_eq_iff hrep hsubs p.pnode).mpr (.inr hlt)⟩
    · exact .inr ⟨hge, (hsubs.wiped _ hge).1⟩
  refine ⟨fun hepoch => ?_, fun hpos => ?_, fun hzero => ?_⟩
  · have hlt := hflight.registered hepoch
    have heq : handle = p.pnode := (handle_eq_iff hrep hsubs p.pnode).mpr (.inr hlt)
    obtain ⟨chain, hchain, hget⟩ := @stepPmNodeGet_of_lt _ _ inst _ _ _ hrep _ hlt
    have hat : ∃ next, (chain.head :: chain.rest).drop inst = n :: next := by
      have hat := h.atNode p hproc hepoch
      rw [Proc.AtNode] at hat
      cases hp : p.pc with
      | call | error =>
          rw [hp] at hat hpc
          obtain ⟨chain', hchain', hdrop⟩ := hat
          obtain ⟨rfl, rfl⟩ := hpc
          obtain rfl := Option.some.inj (hchain.symm.trans hchain')
          exact ⟨_, hdrop⟩
      | _ => exact absurd hpc (by simp [hp, Pc.CallsOf])
    obtain ⟨next, hdrop⟩ := hat
    have hsome : (chain.head :: chain.rest)[inst]? = some n := by
      rw [← List.head?_drop, hdrop]
      rfl
    rw [heq, hget, hsome]
  · refine stepPmNodeGet_of_lt hrep ?_
    rcases hhandle with ⟨hlt, heq⟩ | ⟨-, heq⟩
    · exact heq ▸ hlt
    · exact heq ▸ hpos
  · have heq : handle = 0 := by
      rcases hhandle with ⟨hlt, -⟩ | ⟨-, heq⟩
      · omega
      · exact heq
    have hlimit := P.nodeLimit_range.1
    rw [heq, stepPmNodeGet, if_neg (by omega), if_neg (by omega), (hsubs.wiped 0 hzero.le).2]

/-- The second node of a chain looks itself up. -/
theorem callback_lookup_second :
    ∃ (s : Sys Unit) (p : Proc Unit) (n : StepNode Unit),
      run (sysStep Platform.tests) (Sys.init Platform.tests)
        (failingVisit ++ List.replicate 5 failingTick) = some s ∧
      s.proc = some p ∧ p.pc.CallsOf n 1 ∧
      stepPmNodeGet Platform.tests s.pm (s.pm.nodes p.pnode).handle 1 = .ok (some n) := by
  obtain ⟨s, p, n, hrun, hproc, hpc, hepoch⟩ : ∃ (s : Sys Unit) (p : Proc Unit) (n : StepNode Unit),
      run (sysStep Platform.tests) (Sys.init Platform.tests)
        (failingVisit ++ List.replicate 5 failingTick) = some s ∧
      s.proc = some p ∧ p.pc.CallsOf n 1 ∧ s.pm.epoch = p.under.epoch :=
    ⟨_, _, _, rfl, rfl, ⟨rfl, rfl⟩, rfl⟩
  exact ⟨s, p, n, hrun, hproc, hpc, (callback_lookup hrun hproc hpc).1 hepoch⟩

end Lookup

end StepPipeline
