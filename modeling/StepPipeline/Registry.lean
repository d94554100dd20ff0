import StepPipeline.Library.PriorityOrder
import StepPipeline.Library.LabelledRun
import StepPipeline.Cache
import StepPipeline.Node

/-!
# The processor node registry

The statics of `proc_mgr.c` and the calls that change them.  The registry is an
array of records; a linked list threaded through the records gives the order in
which they are evaluated.

* `PmState` — the statics;
* `stepPmRegister`, `stepPmClear`, `stepPmEnableNode`, `stepPmDisableNode`,
  `stepPmSubscribeToNode` — the calls, collected in `ApiCall` and `apiCall`;
* `registrations` — **the abstract registry**: the chains registered since the
  last clear, in order;
* `Represents` — the statics represent an abstract registry, with the records
  listed in stable priority order;
* `apiCall_represents` — every call keeps that;
* `registry_represents_registrations` — hence every sequence of calls does.

## Calls are single steps

Apart from `step_pm_enable_node` and `step_pm_disable_node`, every call holds
`step_pm_reg_access` from its first access to the statics to its last, and no two of them can
overlap.  The two exceptions write one flag of one record.  So the order in which calls get
the mutex is an order in which they could have been made one at a time, and a call is one
function from statics to statics here.

In one respect that is coarser than the code.  `step_pm_register` calls the init handlers
of the chain while it holds the mutex, and a call that needs no mutex can come in between two of
them; in this model it comes before the first or behind the last.  The record has been
written and linked by then, so what such a call does to the statics is the same either way; only
what an init handler could observe of the enabled flag differs.

## Two kinds of data

The array is a map from indices, and the links of the records are a map of their own, as are
those of the callback blocks.  In C a link is a member of the record it is threaded through, and
`memset` on a record wipes both; `stepPmClear` and `fillRecord` therefore write to both maps.
Keeping them apart lets the list library speak of links alone.

The handle counter is a natural number: it grows by one with each registration up to the
node limit, at which `step_pm_register` refuses, so it never comes near the end of its type.
-/

namespace StepPipeline

open IntrusiveList PriorityOrder

variable {Ω : Type}

/-! ### The statics -/

/-- `struct step_node_sub_callback`, without its link.  `subscribedTo` is a
history variable: the registration the block was attached to. -/
structure StepNodeSubCallback (Ω : Type) where
  cb : Option (FnPtr (NodeChainCompletedCallback Ω))
  userData : ℕ
  subscribedTo : Option Registration

/-- `struct step_pm_node_record`, without its link.  The two counters of the instrumentation have
the width they have in C, as both are meant to wrap. -/
structure StepPmNodeRecord (Ω : Type) where
  subCallbacks : Header ℕ
  node : Option (StepNodeChain Ω)
  handle : ℕ
  priority : ℕ
  enabled : Bool
  runtimeNs : BitVec 32
  runs : BitVec 32

/-- A record wiped by `memset`. -/
def StepPmNodeRecord.zero : StepPmNodeRecord Ω where
  subCallbacks := Header.empty
  node := none
  handle := 0
  priority := 0
  enabled := false
  runtimeNs := 0#32
  runs := 0#32

/-- The statics of the processor manager, and those of the cache it uses.  The
links of the records and of the callback blocks are kept as one map each. -/
structure PmState (Ω : Type) where
  /-- `step_pm_nodes`, by index. -/
  nodes : ℕ → StepPmNodeRecord Ω
  /-- The `snode` members of `step_pm_nodes`. -/
  snode : Links ℕ
  /-- `step_pm_handle_counter`. -/
  handleCounter : ℕ
  /-- `pm_node_slist`. -/
  pmNodeSlist : Header ℕ
  /-- The blocks of `step_callbacks_pool`, by address. -/
  subs : ℕ → StepNodeSubCallback Ω
  /-- The `snode` members of these blocks. -/
  subSnode : Links ℕ
  /-- The blocks that are allocated. -/
  subAllocated : List ℕ
  cache : StepCache
  /-- History variable: how often the registry has been cleared. -/
  epoch : ℕ

/-- The statics after start-up. -/
def PmState.init (P : Platform) : PmState Ω where
  nodes _ := .zero
  snode _ := none
  handleCounter := 0
  pmNodeSlist := Header.empty
  subs _ := ⟨none, 0, none⟩
  subSnode _ := none
  subAllocated := []
  cache := StepCache.init P
  epoch := 0

/-! ### The calls -/

/-- What a call leaves behind: the statics, its return code, the handle it stored, the callbacks
it called, and whether it left defined behaviour.  A call that left it has no return code worth
reading, and its statics are those of before. -/
structure Outcome (Ω : Type) where
  pm : PmState Ω
  rc : ℤ
  handle : Option ℕ
  events : List Event
  fault : Option UndefinedBehaviour

/-- A call that only returns a code. -/
def Outcome.ret (pm : PmState Ω) (rc : ℤ) : Outcome Ω := ⟨pm, rc, none, [], none⟩

/-- A call that indexed `step_pm_nodes` outside its bounds. -/
def Outcome.outOfBounds (pm : PmState Ω) : Outcome Ω :=
  ⟨pm, 0, none, [], some .outOfBounds⟩

/-- The result of the initialisation loop. -/
structure InitOutcome where
  rc : ℤ
  events : List Event
  fault : Option UndefinedBehaviour

/-- The initialisation loop of `step_pm_register` from instance `inst` on; `world i` is what
surrounds the call of instance `i`.  `rc` is overwritten by each init handler, so behind the loop
it has what the last one returned, and an earlier failure shows only in the call of an error
handler. -/
def initLoop (handle : ℕ) (world : ℕ → Ω) :
    ℕ → List (StepNode Ω) → ℤ → List Event → InitOutcome
  | _, [], rc, events => ⟨rc, events, none⟩
  | inst, n :: ns, rc, events =>
      match n.callbacks.initHandler with
      | none => initLoop handle world (inst + 1) ns rc events
      | some f =>
          let rc := f.code (world inst) n.config handle inst
          let events := events ++ [.init f.addr handle inst rc]
          if rc = 0 then initLoop handle world (inst + 1) ns rc events
          else
            match n.callbacks.errorHandler with
            | none => ⟨rc, events, some .nullCall⟩
            | some e =>
                initLoop handle world (inst + 1) ns rc
                  (events ++ [.initError e.addr handle inst rc])

/-- The record `step_pm_register` fills in. -/
def newRecord (node : StepNodeChain Ω) (pri handle : ℕ) : StepPmNodeRecord Ω :=
  { (StepPmNodeRecord.zero : StepPmNodeRecord Ω) with
    node := some node
    priority := pri
    handle := handle
    enabled := true }

/-- The records of the list in the order a traversal meets them. -/
def PmState.listed (P : Platform) (s : PmState Ω) : List ℕ :=
  readList s.snode P.nodeLimit s.pmNodeSlist.head

/-- The search for the insertion point and the three ways of linking the record at `handle` in.
The C loop remembers the last record it has passed and stops at the first of lower priority; it
prepends if it stopped at once, inserts behind the remembered record if it stopped later, and
appends if it came to the end. -/
def linkRecord (P : Platform) (s : PmState Ω) (pri handle : ℕ) : Links ℕ × Header ℕ :=
  match scan (fun i => (s.nodes i).priority) pri none (s.listed P) with
  | (none, some _) => P.slist.prepend s.snode s.pmNodeSlist handle
  | (some prev, some _) => P.slist.insert s.snode s.pmNodeSlist prev handle
  | (_, none) => P.slist.append s.snode s.pmNodeSlist handle

/-- The statics once the record is filled in, before it is linked. -/
def PmState.fillRecord (s : PmState Ω) (node : StepNodeChain Ω) (pri : ℕ) : PmState Ω :=
  { s with
    handleCounter := s.handleCounter + 1
    nodes := Function.update s.nodes s.handleCounter (newRecord node pri s.handleCounter)
    snode := Function.update s.snode s.handleCounter none }

/-- The statics once the record is linked. -/
def PmState.addRecord (P : Platform) (s : PmState Ω) (node : StepNodeChain Ω)
    (pri : ℕ) : PmState Ω :=
  let filled := s.fillRecord node pri
  let linked := linkRecord P filled pri s.handleCounter
  { filled with snode := linked.1, pmNodeSlist := linked.2 }

/-- `step_pm_register`.  At the limit the code stores a handle that no record has and returns
`-ENOMEM`; the check is for equality, so a counter beyond the limit would pass it and index
outside the array.  `Represents` excludes that.  The init handlers run when the record is already
linked and stays linked whatever they return. -/
def stepPmRegister (P : Platform) (s : PmState Ω) (node : StepNodeChain Ω) (pri : ℕ)
    (world : ℕ → Ω) : Outcome Ω :=
  if s.handleCounter = P.nodeLimit then
    ⟨s, negEnomem, some 0xFFFFFFFF, [], none⟩
  else if P.nodeLimit < s.handleCounter then Outcome.outOfBounds s
  else
    let handle := s.handleCounter
    let init := initLoop handle world 0 (node.head :: node.rest) 0 []
    ⟨s.addRecord P node pri, init.rc, some handle, init.events, init.fault⟩

/-- `step_pm_clear`.  All records are wiped with their links, the list header is reset and the
counter starts over.  The callback blocks that hang on the records are not given back to the heap:
`subs` and `subAllocated` stay as they are. -/
def stepPmClear (P : Platform) (s : PmState Ω) : Outcome Ω :=
  Outcome.ret
    { s with
      cache := if P.filterCache then stepCacheClear P s.cache else s.cache
      handleCounter := 0
      nodes := fun i => if i < P.nodeLimit then .zero else s.nodes i
      snode := fun i => if i < P.nodeLimit then none else s.snode i
      pmNodeSlist := Header.empty
      epoch := s.epoch + 1 }
    0

/-- `step_pm_disable_node` and `step_pm_enable_node` differ in the value they write.  Both reject
a handle above the counter; the handle equal to the counter belongs to no registration and is let
through. -/
def stepPmSetEnabled (P : Platform) (s : PmState Ω) (on : Bool) (handle : ℕ) :
    Outcome Ω :=
  if s.handleCounter < handle then Outcome.ret s negEinval
  else if P.nodeLimit ≤ handle then Outcome.outOfBounds s
  else
    Outcome.ret
      { s with nodes :=
          Function.update s.nodes handle { s.nodes handle with enabled := on } }
      0

/-- `step_pm_disable_node`. -/
def stepPmDisableNode (P : Platform) (s : PmState Ω) (handle : ℕ) : Outcome Ω :=
  stepPmSetEnabled P s false handle

/-- `step_pm_enable_node`. -/
def stepPmEnableNode (P : Platform) (s : PmState Ω) (handle : ℕ) : Outcome Ω :=
  stepPmSetEnabled P s true handle

/-- `step_pm_subscribe_to_node`; `block` is what `k_heap_alloc` answers.  The block is asked for
before the record is looked at.  The code appends at the end of the list of the record, so
subscribers are called in the order in which they subscribed. -/
def stepPmSubscribeToNode (P : Platform) (s : PmState Ω) (handle : ℕ)
    (cb : Option (FnPtr (NodeChainCompletedCallback Ω))) (userData : ℕ)
    (block : Option ℕ) : Outcome Ω :=
  if s.handleCounter < handle then Outcome.ret s negEinval
  else
    match block with
    | none => Outcome.ret s negEnomem
    | some nc =>
        if P.nodeLimit ≤ handle then Outcome.outOfBounds s
        else
          let attachedTo := if handle < s.handleCounter then some ⟨handle, s.epoch⟩ else none
          let appended := P.slist.append s.subSnode (s.nodes handle).subCallbacks nc
          Outcome.ret
            { s with
              subs := Function.update s.subs nc ⟨cb, userData, attachedTo⟩
              subSnode := appended.1
              subAllocated := nc :: s.subAllocated
              nodes := Function.update s.nodes handle
                { s.nodes handle with subCallbacks := appended.2 } }
            0

/-- A call of the registry interface, with everything it receives. -/
inductive ApiCall (Ω : Type) where
  | register (node : StepNodeChain Ω) (pri : ℕ) (world : ℕ → Ω)
  | clear
  | enable (handle : ℕ)
  | disable (handle : ℕ)
  | subscribe (handle : ℕ) (cb : Option (FnPtr (NodeChainCompletedCallback Ω)))
      (userData : ℕ) (block : Option ℕ)

/-- Carrying out a call. -/
def apiCall (P : Platform) (s : PmState Ω) : ApiCall Ω → Outcome Ω
  | .register node pri world => stepPmRegister P s node pri world
  | .clear => stepPmClear P s
  | .enable handle => stepPmEnableNode P s handle
  | .disable handle => stepPmDisableNode P s handle
  | .subscribe handle cb userData block => stepPmSubscribeToNode P s handle cb userData block

/-- The handle passed to the call, if it takes one, lies below `bound`. -/
def ApiCall.HandleBelow (bound : ℕ) : ApiCall Ω → Prop
  | .enable handle | .disable handle | .subscribe handle _ _ _ => handle < bound
  | .register _ _ _ | .clear => True

/-! ### The abstract registry -/

/-- The effect of a call on the registrations in force: a chain and its priority
each, in registration order. -/
def registerCall (P : Platform) (regs : List (StepNodeChain Ω × ℕ)) :
    ApiCall Ω → List (StepNodeChain Ω × ℕ)
  | .register node pri _ =>
      if regs.length = P.nodeLimit then regs else regs ++ [(node, pri)]
  | .clear => []
  | _ => regs

/-- **The abstract registry** after a sequence of calls: what a user of the interface thinks it
is, a list of chains with their priorities.  Handles are positions in this list, and no record,
link or counter appears in it. -/
def registrations (P : Platform) (calls : List (ApiCall Ω)) :
    List (StepNodeChain Ω × ℕ) :=
  calls.foldl (registerCall P) []

/-- The priority of the record at an index. -/
def PmState.priorityOf (s : PmState Ω) (i : ℕ) : ℕ := (s.nodes i).priority

/-- **The statics represent the registrations `regs`, listed as `l`.** `regs` is in the order of
registration, which is the order of the handles; `l` is in the order of evaluation.  That the two
have the same elements and `l` is sorted determines `l`, because ties are broken by the handle. -/
structure Represents (P : Platform) (s : PmState Ω)
    (regs : List (StepNodeChain Ω × ℕ)) (l : List ℕ) : Prop where
  /-- The counter counts the registrations. -/
  counter_eq : s.handleCounter = regs.length
  /-- There are at most as many as the array has slots. -/
  length_le : regs.length ≤ P.nodeLimit
  /-- The list header holds `l`, each element once. -/
  holds : Holds s.snode s.pmNodeSlist l
  /-- `l` has exactly the handles that were given out. -/
  mem_iff : ∀ h, h ∈ l ↔ h < regs.length
  /-- The slot at a handle stores the handle, the chain and the priority it was
  registered with. -/
  slot : ∀ h reg, regs[h]? = some reg →
    (s.nodes h).handle = h ∧ (s.nodes h).node = some reg.1 ∧ (s.nodes h).priority = reg.2
  /-- Higher priorities first, equal priorities in registration order. -/
  sorted : l.Pairwise (Before s.priorityOf (· < ·))

/-! ### Every call keeps the representation -/

section Represents

variable {P : Platform} {s s' : PmState Ω} {regs : List (StepNodeChain Ω × ℕ)}
  {l : List ℕ}

theorem represents_init (P : Platform) : Represents P (PmState.init P : PmState Ω) [] [] where
  counter_eq := rfl
  length_le := Nat.zero_le _
  holds := holds_empty _
  mem_iff := by simp
  slot := by simp
  sorted := List.Pairwise.nil

namespace Represents

/-- The list has one entry for each registration. -/
theorem length_listed (h : Represents P s regs l) : l.length = regs.length := by
  have hperm : l.Perm (List.range regs.length) :=
    (List.perm_ext_iff_of_nodup h.holds.nodup List.nodup_range).mpr fun x => by
      rw [h.mem_iff, List.mem_range]
  simpa using hperm.length_eq

/-- The traversal of the list meets `l`. -/
theorem listed_eq (h : Represents P s regs l) : s.listed P = l :=
  readList_eq h.holds.path (h.length_listed ▸ h.length_le)

/-- A change that leaves the list, its links, the counter and the registered
contents of the records alone keeps the representation. -/
theorem of_same (h : Represents P s regs l) (hcounter : s'.handleCounter = s.handleCounter)
    (hlist : s'.pmNodeSlist = s.pmNodeSlist) (hsnode : s'.snode = s.snode)
    (hrecord : ∀ i, (s'.nodes i).handle = (s.nodes i).handle ∧
      (s'.nodes i).node = (s.nodes i).node ∧ (s'.nodes i).priority = (s.nodes i).priority) :
    Represents P s' regs l where
  counter_eq := hcounter.trans h.counter_eq
  length_le := h.length_le
  holds := by
    rw [hlist, hsnode]
    exact h.holds
  mem_iff := h.mem_iff
  slot i reg hreg := by
    obtain ⟨h1, h2, h3⟩ := hrecord i
    rw [h1, h2, h3]
    exact h.slot i reg hreg
  sorted := by
    have hprio : s'.priorityOf = s.priorityOf := funext fun i => (hrecord i).2.2
    rw [hprio]
    exact h.sorted

/-- Filling in the next free record touches no record of the list. -/
theorem fill (h : Represents P s regs l) (node : StepNodeChain Ω) (pri : ℕ) :
    Holds (s.fillRecord node pri).snode (s.fillRecord node pri).pmNodeSlist l ∧
      (∀ x ∈ l, (s.fillRecord node pri).priorityOf x = s.priorityOf x) ∧
      (s.fillRecord node pri).priorityOf s.handleCounter = pri := by
  have hne : ∀ x ∈ l, x ≠ s.handleCounter := by
    intro x hx
    have := (h.mem_iff x).mp hx
    rw [h.counter_eq]
    omega
  refine ⟨h.holds.congr fun x hx => ?_, fun x hx => ?_, ?_⟩
  · exact Function.update_of_ne (hne x hx) _ _
  · simp [PmState.priorityOf, PmState.fillRecord, hne x hx]
  · simp [PmState.priorityOf, PmState.fillRecord, newRecord]

/-- **Linking**: whichever of the three insertions is taken, the new record ends
up between the records it has to let pass and those of lower priority. -/
theorem linkRecord_places (h : Represents P s regs l) (node : StepNodeChain Ω) (pri : ℕ) :
    Places (s.fillRecord node pri).snode
      (linkRecord P (s.fillRecord node pri) pri s.handleCounter)
      (ahead (s.fillRecord node pri).priorityOf pri l ++
        s.handleCounter :: behind (s.fillRecord node pri).priorityOf pri l) := by
  obtain ⟨hholds, -, -⟩ := h.fill node pri
  have hnew : s.handleCounter ∉ l := fun hmem => by
    have := (h.mem_iff _).mp hmem
    rw [h.counter_eq] at this
    omega
  have hlisted : (s.fillRecord node pri).listed P = l :=
    readList_eq hholds.path (h.length_listed ▸ h.length_le)
  set filled := s.fillRecord node pri with hfilled
  have hsplit := ahead_append_behind filled.priorityOf pri l
  unfold linkRecord
  rw [hlisted, show (fun i => (filled.nodes i).priority) = filled.priorityOf from rfl, scan_eq]
  cases hbehind : behind filled.priorityOf pri l with
  | nil =>
      rw [hbehind, List.append_nil] at hsplit
      rw [hsplit]
      cases (l.getLast?.or none) <;> exact P.slist.append_places hholds hnew
  | cons b bs =>
      rcases List.eq_nil_or_concat (ahead filled.priorityOf pri l) with ha | ⟨as, a, ha⟩
      · -- every record has a lower priority: `prev` is NULL
        rw [hbehind, ha, List.nil_append] at hsplit
        subst hsplit
        rw [ha]
        exact P.slist.prepend_places hholds hnew
      · rw [List.concat_eq_append] at ha
        rw [hbehind, ha, List.append_assoc, List.singleton_append] at hsplit
        rw [ha, List.append_assoc, List.singleton_append, List.getLast?_append]
        simp only [List.getLast?_singleton, Option.some_or, List.head?_cons]
        rw [← hsplit] at hholds hnew
        exact P.slist.insert_places hholds hnew

/-- **A registration below the limit**: the abstract registry grows at its end,
the list by one element at some place. -/
theorem add (h : Represents P s regs l) (hlimit : regs.length < P.nodeLimit)
    (node : StepNodeChain Ω) (pri : ℕ) :
    ∃ l', Extends l s.handleCounter l' ∧
      Represents P (s.addRecord P node pri) (regs ++ [(node, pri)]) l' := by
  have hplaces := h.linkRecord_places node pri
  obtain ⟨-, hprio, hnewprio⟩ := h.fill node pri
  have hext : Extends l s.handleCounter
      (ahead (s.fillRecord node pri).priorityOf pri l ++
        s.handleCounter :: behind (s.fillRecord node pri).priorityOf pri l) :=
    ⟨_, _, (ahead_append_behind _ _ _).symm, rfl⟩
  have hslot : ∀ i reg, (regs ++ [(node, pri)])[i]? = some reg →
      ((s.fillRecord node pri).nodes i).handle = i ∧
        ((s.fillRecord node pri).nodes i).node = some reg.1 ∧
        ((s.fillRecord node pri).nodes i).priority = reg.2 := by
    intro i reg hreg
    by_cases hi : i = s.handleCounter
    · subst hi
      rw [h.counter_eq, List.getElem?_concat_length] at hreg
      obtain rfl : (node, pri) = reg := Option.some.inj hreg
      simp [PmState.fillRecord, newRecord]
    · have hlt : i < regs.length := by
        have := (List.getElem?_eq_some_iff.mp hreg).1
        rw [List.length_append, List.length_singleton] at this
        rw [h.counter_eq] at hi
        omega
      rw [List.getElem?_append_left hlt] at hreg
      simpa [PmState.fillRecord, hi] using h.slot i reg hreg
  refine ⟨_, hext, ⟨?_, ?_, hplaces.holds, ?_, hslot, ?_⟩⟩
  · simp [PmState.addRecord, PmState.fillRecord, h.counter_eq]
  · simpa using Nat.succ_le_of_lt hlimit
  · intro x
    rw [hext.mem_iff, h.mem_iff, h.counter_eq, List.length_append, List.length_singleton]
    omega
  · -- filling the new record leaves the priorities of the listed ones
    have hsorted : l.Pairwise (Before (s.fillRecord node pri).priorityOf (· < ·)) := by
      refine h.sorted.imp_of_mem fun {x y} hx hy hxy => ?_
      rwa [Before, hprio x hx, hprio y hy]
    have hlt : ∀ x ∈ l, x < s.handleCounter := by
      intro x hx
      rw [h.counter_eq]
      exact (h.mem_iff x).mp hx
    have hins := pairwise_insert hsorted hlt
    rwa [hnewprio] at hins

/-- A clear leaves the empty registry, whatever was there before. -/
theorem clear (P : Platform) (s : PmState Ω) :
    Represents P (stepPmClear P s).pm [] [] where
  counter_eq := rfl
  length_le := Nat.zero_le _
  holds := holds_empty _
  mem_iff := by simp
  slot := by simp
  sorted := List.Pairwise.nil

end Represents

/-- **What enabling and disabling write**: the enabled flag of one record at most. -/
theorem stepPmSetEnabled_frame (P : Platform) (s : PmState Ω) (on : Bool) (handle : ℕ) :
    ∃ nodes, (stepPmSetEnabled P s on handle).pm = { s with nodes := nodes } ∧
      ∀ i, nodes i = { s.nodes i with enabled := (nodes i).enabled } ∧
        (i ≠ handle → nodes i = s.nodes i) := by
  have hnone : ∀ i, s.nodes i = { s.nodes i with enabled := (s.nodes i).enabled } ∧
      (i ≠ handle → s.nodes i = s.nodes i) := fun i => ⟨rfl, fun _ => rfl⟩
  unfold stepPmSetEnabled
  split
  · exact ⟨s.nodes, rfl, hnone⟩
  · split
    · exact ⟨s.nodes, rfl, hnone⟩
    · refine ⟨_, rfl, fun i => ⟨?_, fun hi => Function.update_of_ne hi _ _⟩⟩
      by_cases hi : i = handle
      · subst hi
        rw [Function.update_self]
      · rw [Function.update_of_ne hi]

/-- **What a call can do to the statics.** A registration is refused or added; the registry is
cleared; one enabled flag is written at most; a subscription is refused, or its block is linked
in.  Every invariant of the statics is proved by these cases; the functions themselves are
unfolded only in `apiCall_move`. -/
inductive ApiMove (P : Platform) (s : PmState Ω) : ApiCall Ω → PmState Ω → Prop
  | full (node : StepNodeChain Ω) (pri : ℕ) (world : ℕ → Ω)
      (hfull : s.handleCounter = P.nodeLimit) : ApiMove P s (.register node pri world) s
  | add (node : StepNodeChain Ω) (pri : ℕ) (world : ℕ → Ω)
      (hlimit : s.handleCounter < P.nodeLimit) :
      ApiMove P s (.register node pri world) (s.addRecord P node pri)
  | clear : ApiMove P s .clear (stepPmClear P s).pm
  | setEnabled {c : ApiCall Ω} (handle : ℕ) (nodes : ℕ → StepPmNodeRecord Ω)
      (hc : c = .enable handle ∨ c = .disable handle)
      (hnodes : ∀ i, nodes i = { s.nodes i with enabled := (nodes i).enabled } ∧
        (i ≠ handle → nodes i = s.nodes i)) :
      ApiMove P s c { s with nodes := nodes }
  | refused (handle : ℕ) (cb : Option (FnPtr (NodeChainCompletedCallback Ω))) (userData : ℕ)
      (block : Option ℕ) : ApiMove P s (.subscribe handle cb userData block) s
  | subscribe (handle : ℕ) (cb : Option (FnPtr (NodeChainCompletedCallback Ω)))
      (userData nc : ℕ) :
      ApiMove P s (.subscribe handle cb userData (some nc))
        { s with
          subs := Function.update s.subs nc
            ⟨cb, userData, if handle < s.handleCounter then some ⟨handle, s.epoch⟩ else none⟩
          subSnode := (P.slist.append s.subSnode (s.nodes handle).subCallbacks nc).1
          subAllocated := nc :: s.subAllocated
          nodes := Function.update s.nodes handle
            { s.nodes handle with
              subCallbacks :=
                (P.slist.append s.subSnode (s.nodes handle).subCallbacks nc).2 } }

theorem apiCall_move (hle : s.handleCounter ≤ P.nodeLimit) (c : ApiCall Ω) :
    ApiMove P s c (apiCall P s c).pm := by
  cases c with
  | register node pri world =>
      simp only [apiCall, stepPmRegister, if_neg (not_lt.mpr hle)]
      split
      · exact .full node pri world ‹_›
      · exact .add node pri world (by omega)
  | clear => exact .clear
  | enable handle =>
      obtain ⟨nodes, hpm, hnodes⟩ := stepPmSetEnabled_frame P s true handle
      rw [apiCall, stepPmEnableNode, hpm]
      exact .setEnabled handle nodes (Or.inl rfl) hnodes
  | disable handle =>
      obtain ⟨nodes, hpm, hnodes⟩ := stepPmSetEnabled_frame P s false handle
      rw [apiCall, stepPmDisableNode, hpm]
      exact .setEnabled handle nodes (Or.inr rfl) hnodes
  | subscribe handle cb userData block =>
      simp only [apiCall, stepPmSubscribeToNode]
      split
      · exact .refused handle cb userData block
      · cases block with
        | none => exact .refused handle cb userData none
        | some nc =>
            dsimp only
            split
            · exact .refused handle cb userData (some nc)
            · exact .subscribe handle cb userData nc

/-- **What a call can do to the registry**: nothing; clear it; or add one
registration. -/
inductive RegistryStep (P : Platform) (s : PmState Ω) : ApiCall Ω → PmState Ω → Prop
  | same {c : ApiCall Ω} {s' : PmState Ω} (hclear : c ≠ .clear)
      (hcounter : s'.handleCounter = s.handleCounter)
      (hlist : s'.pmNodeSlist = s.pmNodeSlist) (hsnode : s'.snode = s.snode)
      (hepoch : s'.epoch = s.epoch) (hcache : s'.cache = s.cache)
      (hrecord : ∀ i, (s'.nodes i).handle = (s.nodes i).handle ∧
        (s'.nodes i).node = (s.nodes i).node ∧
        (s'.nodes i).priority = (s.nodes i).priority)
      (hregs : ∀ regs : List (StepNodeChain Ω × ℕ), s.handleCounter = regs.length →
        registerCall P regs c = regs) :
      RegistryStep P s c s'
  | clear : RegistryStep P s .clear (stepPmClear P s).pm
  | add (node : StepNodeChain Ω) (pri : ℕ) (world : ℕ → Ω)
      (hlimit : s.handleCounter < P.nodeLimit) :
      RegistryStep P s (.register node pri world) (s.addRecord P node pri)

/-- What a call does to the statics it does to the registry. -/
theorem ApiMove.registryStep {c : ApiCall Ω} (hmove : ApiMove P s c s') :
    RegistryStep P s c s' := by
  cases hmove with
  | full node pri world hfull =>
      refine .same (by simp) rfl rfl rfl rfl rfl (fun _ => ⟨rfl, rfl, rfl⟩) fun regs hregs => ?_
      rw [registerCall, if_pos (hregs ▸ hfull)]
  | add node pri world hlimit => exact .add node pri world hlimit
  | clear => exact .clear
  | setEnabled handle nodes hc hnodes =>
      have hrecord : ∀ i, (nodes i).handle = (s.nodes i).handle ∧
          (nodes i).node = (s.nodes i).node ∧ (nodes i).priority = (s.nodes i).priority := by
        intro i
        rw [(hnodes i).1]
        exact ⟨rfl, rfl, rfl⟩
      rcases hc with rfl | rfl
      · exact .same (by simp) rfl rfl rfl rfl rfl hrecord fun _ _ => rfl
      · exact .same (by simp) rfl rfl rfl rfl rfl hrecord fun _ _ => rfl
  | refused handle cb userData block =>
      exact .same (by simp) rfl rfl rfl rfl rfl (fun _ => ⟨rfl, rfl, rfl⟩) fun _ _ => rfl
  | subscribe handle cb userData nc =>
      refine .same (by simp) rfl rfl rfl rfl rfl (fun i => ?_) fun _ _ => rfl
      by_cases hi : i = handle
      · subst hi
        simp
      · simp [hi]

theorem apiCall_registryStep (hle : s.handleCounter ≤ P.nodeLimit) (c : ApiCall Ω) :
    RegistryStep P s c (apiCall P s c).pm :=
  (apiCall_move hle c).registryStep

theorem Represents.counter_le (h : Represents P s regs l) :
    s.handleCounter ≤ P.nodeLimit :=
  h.counter_eq ▸ h.length_le

/-- The records in the list are those below the counter. -/
theorem Represents.mem_listed_iff (h : Represents P s regs l) {i : ℕ} :
    i ∈ s.listed P ↔ i < s.handleCounter := by
  rw [h.listed_eq, h.mem_iff, h.counter_eq]

/-- A record in the list has a slot below the counter, and a chain. -/
theorem Represents.slot_of_listed (h : Represents P s regs l) {i : ℕ} (hi : i ∈ s.listed P) :
    i < s.handleCounter ∧ ∃ chain, (s.nodes i).node = some chain := by
  have hlt := h.mem_listed_iff.mp hi
  have hlt' : i < regs.length := h.counter_eq ▸ hlt
  obtain ⟨-, hnode, -⟩ := h.slot i regs[i] (List.getElem?_eq_getElem hlt')
  exact ⟨hlt, _, hnode⟩

/-- **The step lemma**: a call changes the statics as it changes the abstract registry.  Except
for a clear, the list stays or grows by the new record, at whatever place: this is what a dispatch
that stands in the middle of the list relies on when calls come in. -/
theorem apiCall_represents (h : Represents P s regs l) (c : ApiCall Ω) :
    ∃ l', Represents P (apiCall P s c).pm (registerCall P regs c) l' ∧
      (c ≠ .clear → l' = l ∨ Extends l s.handleCounter l') := by
  have hstep := apiCall_registryStep h.counter_le c
  generalize (apiCall P s c).pm = s' at hstep
  cases hstep with
  | same hclear hcounter hlist hsnode _ _ hrecord hregs =>
      rw [hregs regs h.counter_eq]
      exact ⟨l, h.of_same hcounter hlist hsnode hrecord, fun _ => Or.inl rfl⟩
  | clear => exact ⟨[], Represents.clear P s, fun hne => absurd rfl hne⟩
  | add node pri world hlimit =>
      rw [h.counter_eq] at hlimit
      obtain ⟨l', hext, hrep⟩ := h.add hlimit node pri
      rw [registerCall, if_neg hlimit.ne]
      exact ⟨l', hrep, fun _ => Or.inr hext⟩

theorem initLoop_fault_ne (handle : ℕ) (world : ℕ → Ω) (inst : ℕ)
    (ns : List (StepNode Ω)) (rc : ℤ) (events : List Event) :
    (initLoop handle world inst ns rc events).fault ≠ some .outOfBounds := by
  induction ns generalizing inst rc events with
  | nil => simp [initLoop]
  | cons n ns ih =>
      rw [initLoop]
      split
      · exact ih _ _ _
      · dsimp only
        split
        · exact ih _ _ _
        · split
          · simp
          · exact ih _ _ _

theorem initLoop_events (handle : ℕ) (world : ℕ → Ω) (inst : ℕ) (ns : List (StepNode Ω))
    (rc : ℤ) (events : List Event) (h : ∀ e ∈ events, e.isInit) :
    ∀ e ∈ (initLoop handle world inst ns rc events).events, e.isInit := by
  induction ns generalizing inst rc events with
  | nil => exact h
  | cons n ns ih =>
      rw [initLoop]
      split
      · exact ih _ _ _ h
      · rename_i f hf
        dsimp only
        have hcalled : ∀ e ∈ events ++ [.init f.addr handle inst
            (f.code (world inst) n.config handle inst)], e.isInit := by
          intro e he
          rcases List.mem_append.mp he with he | he
          · exact h e he
          · rw [List.mem_singleton.mp he, Event.isInit]
        split
        · exact ih _ _ _ hcalled
        · split
          · exact hcalled
          · refine ih _ _ _ fun e he => ?_
            rcases List.mem_append.mp he with he | he
            · exact hcalled e he
            · rw [List.mem_singleton.mp he, Event.isInit]

/-- The only callbacks a call makes are those of the initialisation. -/
theorem apiCall_events (P : Platform) (s : PmState Ω) (c : ApiCall Ω) :
    ∀ e ∈ (apiCall P s c).events, e.isInit := by
  have hset : ∀ on handle, (stepPmSetEnabled P s on handle).events = [] := by
    intro on handle
    unfold stepPmSetEnabled
    split
    · rfl
    · split <;> rfl
  intro e he
  cases c with
  | register node pri world =>
      simp only [apiCall, stepPmRegister] at he
      split at he
      · cases he
      · split at he
        · cases he
        · exact initLoop_events _ _ _ _ _ _ (fun _ h => by cases h) e he
  | clear => cases he
  | enable handle =>
      rw [apiCall, stepPmEnableNode, hset] at he
      cases he
  | disable handle =>
      rw [apiCall, stepPmDisableNode, hset] at he
      cases he
  | subscribe handle cb userData block =>
      simp only [apiCall, stepPmSubscribeToNode] at he
      split at he
      · cases he
      · cases block with
        | none => cases he
        | some nc =>
            dsimp only at he
            split at he <;> cases he

/-- A call with handles below the limit stays inside the array. -/
theorem apiCall_fault_ne (h : Represents P s regs l) {c : ApiCall Ω}
    (hc : c.HandleBelow P.nodeLimit) :
    (apiCall P s c).fault ≠ some .outOfBounds := by
  have hset : ∀ (on : Bool) (handle : ℕ), handle < P.nodeLimit →
      (stepPmSetEnabled P s on handle).fault ≠ some .outOfBounds := by
    intro on handle hlt
    simp only [stepPmSetEnabled, if_neg (not_le.mpr hlt)]
    split <;> simp [Outcome.ret]
  cases c with
  | register node pri world =>
      simp only [apiCall, stepPmRegister, if_neg (not_lt.mpr h.counter_le)]
      split
      · simp
      · exact initLoop_fault_ne _ _ _ _ _ _
  | clear => simp [apiCall, stepPmClear, Outcome.ret]
  | enable handle => exact hset true handle hc
  | disable handle => exact hset false handle hc
  | subscribe handle cb userData block =>
      have hlt : handle < P.nodeLimit := hc
      simp only [apiCall, stepPmSubscribeToNode, if_neg (not_le.mpr hlt)]
      split
      · simp [Outcome.ret]
      · cases block <;> simp [Outcome.ret]

end Represents

/-! ### Sequences of calls -/

/-- Carrying out one call after the other. -/
def runCalls (P : Platform) (s : PmState Ω) (calls : List (ApiCall Ω)) : PmState Ω :=
  calls.foldl (fun s c => (apiCall P s c).pm) s

theorem runCalls_represents {P : Platform} {s : PmState Ω}
    {regs : List (StepNodeChain Ω × ℕ)} {l : List ℕ} (h : Represents P s regs l)
    (calls : List (ApiCall Ω)) :
    ∃ l', Represents P (runCalls P s calls) (calls.foldl (registerCall P) regs) l' := by
  induction calls generalizing s regs l with
  | nil => exact ⟨l, h⟩
  | cons c calls ih =>
      obtain ⟨l', h', -⟩ := apiCall_represents h c
      exact ih h'

/-- **The registry represents the registrations in force**, after any sequence of
calls whose handles lie below the node limit: the list has exactly the handles
given out since the last clear, each once, in stable priority order; each record
is stored at its handle with the chain and priority it was registered with; the
counter does not exceed the limit; and no call left the array. -/
theorem registry_represents_registrations (P : Platform) (calls : List (ApiCall Ω))
    (hcalls : ∀ c ∈ calls, c.HandleBelow P.nodeLimit) :
    (∃ l, Represents P (runCalls P (PmState.init P) calls) (registrations P calls) l) ∧
      ∀ pre c post, calls = pre ++ c :: post →
        (apiCall P (runCalls P (PmState.init P) pre) c).fault ≠ some .outOfBounds := by
  refine ⟨runCalls_represents (represents_init P) calls, fun pre c post heq => ?_⟩
  obtain ⟨l, h⟩ := runCalls_represents (represents_init P) pre
  exact apiCall_fault_ne h (hcalls c (heq ▸ by simp))

/-- A chain of one node without callbacks, accepting every measurement. -/
def silentChain : StepNodeChain Ω := ⟨⟨.catchAll, .none, 0⟩, []⟩

/-- Two registrations, the second one of higher priority, and a disable of a slot
that is not registered yet. -/
theorem registry_represents_registrations_two :
    ∃ l, Represents Platform.tests
      (runCalls Platform.tests (PmState.init Platform.tests)
        [.register silentChain 1 fun _ => (), .disable 1,
          .register silentChain 7 fun _ => ()])
      [(silentChain, 1), (silentChain, 7)] l :=
  (registry_represents_registrations Platform.tests
    [.register silentChain 1 fun _ => (), .disable 1, .register silentChain 7 fun _ => ()]
    (by simp [ApiCall.HandleBelow, Platform.tests])).1

end StepPipeline
