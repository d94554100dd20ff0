import StepPipeline.DispatchReturns
import Mathlib.Algebra.BigOperators.Group.Finset.Basic

/-!
# The pool of callback blocks

`step_pm_subscribe_to_node` takes a block from `step_callbacks_pool`, and nothing ever
gives one back.

* `PmState.subscribers` and `PmState.reachableSubs` — the blocks a dispatch can still
  reach, slot by slot;
* `NoLeak` — as many blocks are allocated as can be reached from registered records;
* `reachableSubs_le` — what can be reached is allocated, so a lost block stays lost;
* `no_leak_iff` — **no block is lost by a run exactly if** every clear found no block
  allocated, and no subscription was attached to the slot the next registration wipes.

## Two numbers

A leak is a difference between what the heap has handed out and what the program can still get at.
Both are counted: `subAllocated` by the heap, and the blocks that a traversal of the lists of
registered records meets.  Nothing in the code compares them, and nothing could, since no path
frees a block.  Because of that the difference never shrinks, and the theorem can say of a run as
a whole what each of its steps must avoid.

Besides the clear there is a second way to lose a block: a subscription to the handle equal to the
counter, which `HandleValidity` has let through, is attached to a slot that the next registration
wipes.
-/

namespace StepPipeline

open IntrusiveList LabelledRun

variable {Ω : Type}

/-- The blocks in the list of a slot, in traversal order. -/
def PmState.subscribers (s : PmState Ω) (i : ℕ) : List ℕ :=
  readList s.subSnode s.subAllocated.length (s.nodes i).subCallbacks.head

/-- The number of blocks in the lists of the registered records. -/
def PmState.reachableSubs (s : PmState Ω) : ℕ :=
  ∑ i ∈ Finset.range s.handleCounter, (s.subscribers i).length

/-- **No block is lost**: those allocated are those in the lists of registered records.  Equality
of the numbers is enough, as what can be reached is allocated
(`SubsRepresented.reachableSubs_le`). -/
def NoLeak (s : PmState Ω) : Prop := s.subAllocated.length = s.reachableSubs

instance (s : PmState Ω) : Decidable (NoLeak s) := inferInstanceAs (Decidable (_ = _))

/-- The steps that lose no block: a clear when none is allocated, and a subscription that is
refused, or gets no block, or names a registered record.  Behind the array there is no record to
name.  The condition is on the state before the step, and on what the call receives. -/
def KeepsBlocks (P : Platform) (s : Sys Ω) : Label Ω → Prop
  | .other _ .clear => s.pm.subAllocated = []
  | .other _ (.subscribe handle _ _ (some _)) =>
      handle = s.pm.handleCounter → P.nodeLimit ≤ handle
  | _ => True

section Blocks

variable {P : Platform} {pm pm' : PmState Ω} {subsOf : ℕ → List ℕ}

/-- The list of a slot is not longer than the blocks allocated. -/
theorem SubsRepresented.length_le (h : SubsRepresented pm subsOf) (i : ℕ) :
    (subsOf i).length ≤ pm.subAllocated.length :=
  (List.subperm_of_subset (h.holds i).nodup fun b hb => h.allocated i b hb).length_le

/-- A traversal meets the blocks of the slot. -/
theorem SubsRepresented.subscribers_eq (h : SubsRepresented pm subsOf) (i : ℕ) :
    pm.subscribers i = subsOf i :=
  readList_eq (h.holds i).path (h.length_le i)

theorem SubsRepresented.reachableSubs_eq (h : SubsRepresented pm subsOf) :
    pm.reachableSubs = ∑ i ∈ Finset.range pm.handleCounter, (subsOf i).length :=
  Finset.sum_congr rfl fun i _ => by rw [h.subscribers_eq]

/-- **What can be reached is allocated**, each block once. -/
theorem SubsRepresented.reachableSubs_le (h : SubsRepresented pm subsOf) :
    pm.reachableSubs ≤ pm.subAllocated.length := by
  have hdisjoint : (Finset.range pm.handleCounter : Set ℕ).PairwiseDisjoint
      fun i => (subsOf i).toFinset := by
    intro i _ j _ hij
    rw [Function.onFun, Finset.disjoint_left]
    intro b hi hj
    exact hij (h.disjoint i j b (List.mem_toFinset.mp hi) (List.mem_toFinset.mp hj))
  calc pm.reachableSubs
      = ∑ i ∈ Finset.range pm.handleCounter, (subsOf i).toFinset.card := by
        rw [h.reachableSubs_eq]
        exact Finset.sum_congr rfl fun i _ =>
          (List.toFinset_card_of_nodup (h.holds i).nodup).symm
    _ = ((Finset.range pm.handleCounter).biUnion fun i => (subsOf i).toFinset).card :=
        (Finset.card_biUnion hdisjoint).symm
    _ ≤ pm.subAllocated.toFinset.card := by
        refine Finset.card_le_card fun b hb => ?_
        obtain ⟨i, -, hi⟩ := Finset.mem_biUnion.mp hb
        exact List.mem_toFinset.mpr (h.allocated i b (List.mem_toFinset.mp hi))
    _ ≤ pm.subAllocated.length := List.toFinset_card_le _

/-- The count is made on the lists, the blocks allocated and the counter alone. -/
theorem noLeak_congr {pm' : PmState Ω} (hcounter : pm'.handleCounter = pm.handleCounter)
    (hnext : pm'.subSnode = pm.subSnode) (halloc : pm'.subAllocated = pm.subAllocated)
    (hlists : ∀ i, (pm'.nodes i).subCallbacks = (pm.nodes i).subCallbacks) :
    NoLeak pm' ↔ NoLeak pm := by
  simp only [NoLeak, PmState.reachableSubs, PmState.subscribers, hcounter, hnext, halloc,
    hlists]

/-- Writing an enabled flag loses nothing. -/
theorem noLeak_setEnabled (P : Platform) (pm : PmState Ω) (on : Bool) (handle : ℕ) :
    NoLeak (stepPmSetEnabled P pm on handle).pm ↔ NoLeak pm := by
  obtain ⟨nodes, hpm, hnodes⟩ := stepPmSetEnabled_frame P pm on handle
  rw [hpm]
  refine noLeak_congr rfl rfl rfl fun i => ?_
  show (nodes i).subCallbacks = (pm.nodes i).subCallbacks
  rw [(hnodes i).1]

/-- A registration adds an empty list, whatever was attached to the slot before. -/
theorem noLeak_add (h : SubsRepresented pm subsOf) (node : StepNodeChain Ω) (pri : ℕ) :
    NoLeak (pm.addRecord P node pri) ↔ NoLeak pm := by
  have hsum : (pm.addRecord P node pri).reachableSubs = pm.reachableSubs := by
    have hcounter : (pm.addRecord P node pri).handleCounter = pm.handleCounter + 1 := rfl
    rw [(h.add node pri).reachableSubs_eq, h.reachableSubs_eq, hcounter,
      Finset.sum_range_succ, Function.update_self, List.length_nil, Nat.add_zero]
    refine Finset.sum_congr rfl fun i hi => ?_
    have hne : i ≠ pm.handleCounter := (Finset.mem_range.mp hi).ne
    rw [Function.update_of_ne hne]
  rw [NoLeak, NoLeak, hsum]
  exact Iff.rfl

/-- A clear lets go of every list and gives no block back. -/
theorem noLeak_clear (h : SubsRepresented pm subsOf) :
    NoLeak (stepPmClear P pm).pm ↔ NoLeak pm ∧ pm.subAllocated = [] := by
  have hafter : NoLeak (stepPmClear P pm).pm ↔ pm.subAllocated = [] := by
    rw [← List.length_eq_zero_iff]
    exact Iff.rfl
  rw [hafter]
  refine ⟨fun hnil => ⟨?_, hnil⟩, And.right⟩
  have hle := h.reachableSubs_le
  rw [hnil] at hle
  rw [NoLeak, hnil]
  exact (Nat.le_zero.mp hle).symm

/-- A subscription takes one block, and adds one to what can be reached exactly if it
names a registered record. -/
theorem noLeak_subscribe (h : SubsRepresented pm subsOf) {handle nc : ℕ}
    (hle : handle ≤ pm.handleCounter)
    (h' : SubsRepresented pm' (Function.update subsOf handle (subsOf handle ++ [nc])))
    (hcounter : pm'.handleCounter = pm.handleCounter)
    (halloc : pm'.subAllocated = nc :: pm.subAllocated) :
    NoLeak pm' ↔ NoLeak pm ∧ handle ≠ pm.handleCounter := by
  have hle' := h.reachableSubs_le
  rw [NoLeak, NoLeak, h'.reachableSubs_eq, hcounter, halloc, List.length_cons]
  rw [h.reachableSubs_eq] at hle' ⊢
  by_cases hin : handle < pm.handleCounter
  · have hmem : handle ∈ Finset.range pm.handleCounter := Finset.mem_range.mpr hin
    have hsum : ∑ i ∈ Finset.range pm.handleCounter,
        (Function.update subsOf handle (subsOf handle ++ [nc]) i).length =
          ∑ i ∈ Finset.range pm.handleCounter, (subsOf i).length + 1 := by
      rw [← Finset.add_sum_erase _ _ hmem, ← Finset.add_sum_erase _ _ hmem,
        Function.update_self, List.length_append, List.length_singleton]
      have hrest : ∑ i ∈ (Finset.range pm.handleCounter).erase handle,
          (Function.update subsOf handle (subsOf handle ++ [nc]) i).length =
            ∑ i ∈ (Finset.range pm.handleCounter).erase handle, (subsOf i).length :=
        Finset.sum_congr rfl fun i hi => by
          rw [Function.update_of_ne (Finset.ne_of_mem_erase hi)]
      omega
    rw [hsum]
    exact ⟨fun heq => ⟨by omega, hin.ne⟩, fun hboth => by omega⟩
  · have heq : handle = pm.handleCounter := le_antisymm hle (not_lt.mp hin)
    have hsum : ∑ i ∈ Finset.range pm.handleCounter,
        (Function.update subsOf handle (subsOf handle ++ [nc]) i).length =
          ∑ i ∈ Finset.range pm.handleCounter, (subsOf i).length :=
      Finset.sum_congr rfl fun i hi => by
        have hne : i ≠ handle := heq ▸ (Finset.mem_range.mp hi).ne
        rw [Function.update_of_ne hne]
    rw [hsum]
    exact iff_of_false (by omega) (fun hboth => hboth.2 heq)

end Blocks

section Runs

variable {P : Platform} {s s' : Sys Ω}

/-- **The step lemma of the pool**: no block is lost after a step exactly if none was lost
before and the step loses none. -/
theorem sysStep_noLeak {label : Label Ω} (h : ReturnInvariant P s)
    (hstep : sysStep P s label = some s') :
    NoLeak s'.pm ↔ NoLeak s.pm ∧ KeepsBlocks P s label := by
  obtain ⟨subsOf, hsubs⟩ := h.subscribers
  obtain ⟨regs, l, hrep⟩ := h.sys.registry
  obtain ⟨-, hmove⟩ := sysStep_move hstep
  cases hmove with
  | process _ _ _ _ => exact (and_iff_left trivial).symm
  | proc _ hmove =>
      have hsame := hmove.sameRegistry
      rw [noLeak_congr hsame.handleCounter hsame.subSnode hsame.subAllocated
        hsame.subCallbacks]
      exact (and_iff_left trivial).symm
  | other t c _ _ hheap =>
      have hle := hrep.counter_le
      show NoLeak (apiCall P s.pm c).pm ↔ NoLeak s.pm ∧ KeepsBlocks P s (.other t c)
      cases c with
      | clear => exact noLeak_clear hsubs
      | register node pri world =>
          refine Iff.trans ?_ (and_iff_left trivial).symm
          have hmove := apiCall_move hle (.register node pri world)
          generalize (apiCall P s.pm (.register node pri world)).pm = pm' at hmove
          cases hmove with
          | full _ _ _ _ => exact Iff.rfl
          | add _ _ _ _ => exact noLeak_add hsubs node pri
          | setEnabled _ _ hc _ => rcases hc with hc | hc <;> cases hc
      | enable handle =>
          exact (noLeak_setEnabled P s.pm true handle).trans (and_iff_left trivial).symm
      | disable handle =>
          exact (noLeak_setEnabled P s.pm false handle).trans (and_iff_left trivial).symm
      | subscribe handle cb userData block =>
          rcases subscribe_cases P s.pm handle cb userData block with
            ⟨hrefused, rc, fault, hcall, -⟩ | ⟨nc, rfl, hle', hlt, hcall⟩
          · rw [hcall]
            cases block with
            | none => exact (and_iff_left trivial).symm
            | some nc =>
                refine (and_iff_left fun heq => ?_).symm
                rcases hrefused with hgt | hnone | hout
                · exact absurd heq hgt.ne'
                · cases hnone
                · exact hout
          · -- the block is linked in, but at `handle_counter` into a slot nobody registered
            have hfresh : nc ∉ s.pm.subAllocated := by simpa [ApiCall.heapOk] using hheap
            have hnew : nc ∉ subsOf handle := fun hmem =>
              hfresh (hsubs.allocated handle nc hmem)
            have happ := hsubs.append cb userData hfresh
              (P.slist.append_places (hsubs.holds handle) hnew)
            have hkeeps : KeepsBlocks P s (.other t (.subscribe handle cb userData
                (some nc))) ↔ handle ≠ s.pm.handleCounter :=
              forall_congr' fun _ => iff_false_intro hlt.not_ge
            rw [hkeeps, hcall]
            exact noLeak_subscribe hsubs hle' happ rfl rfl

/-- **No block is lost, exactly.**  After any run of registrations, subscriptions, clears,
enables, disables and processed measurements, whatever the heap answers, the blocks
allocated are those that can be reached from registered records if and only if every step
keeps its blocks. -/
theorem no_leak_iff (P : Platform) {labels : List (Label Ω)} {s : Sys Ω}
    (hrun : run (sysStep P) (Sys.init P) labels = some s) :
    NoLeak s.pm ↔ Meets (sysStep P) (KeepsBlocks P) (Sys.init P) labels := by
  have hlift := holds_iff_meets (Q := fun s : Sys Ω => NoLeak s.pm)
    (fun _ _ _ hI hstep => sysStep_returnInvariant hI hstep)
    (fun _ _ _ hI hstep => sysStep_noLeak hI hstep) (returnInvariant_init P) hrun
  rw [hlift]
  exact and_iff_right rfl

/-- One registration with a subscriber. -/
def subscribed (block : ℕ) : List (Label Unit) :=
  [.other 1 (.register silentChain 1 fun _ => ()), .other 1 (.subscribe 0 none 0 (some block))]

/-- The same run, without a clear. -/
theorem no_leak_iff_subscribed :
    ∃ s, run (sysStep Platform.tests) (Sys.init Platform.tests) (subscribed 0) = some s ∧
      (NoLeak s.pm ↔
        Meets (sysStep Platform.tests) (KeepsBlocks Platform.tests) (Sys.init Platform.tests)
          (subscribed 0)) :=
  ⟨_, rfl, no_leak_iff Platform.tests rfl⟩

/-- **A clear loses the blocks**: registering, subscribing and clearing twice leaves two
blocks allocated and none that can be reached. -/
theorem clear_leaks :
    ∃ s, run (sysStep Platform.tests) (Sys.init Platform.tests)
        (subscribed 0 ++ [.other 1 .clear] ++ subscribed 1 ++ [.other 1 .clear]) = some s ∧
      s.pm.subAllocated.length = 2 ∧ s.pm.reachableSubs = 0 ∧ ¬NoLeak s.pm :=
  ⟨_, rfl, rfl, rfl, by decide⟩

end Runs

end StepPipeline
