import StepPipeline.DispatchOrder
import StepPipeline.RunAccounting

/-!
# Listing the registry while it is in use

`step_pm_list` walks the list of records without the registry lock, with a successor it reads
before it prints, while other threads register, subscribe, enable and disable, and while
measurements are dispatched.

* `Reader`, `readerStep` — the function, one access to the list at a time;
* `Listing`, `listingStep` — a thread in it, next to the system of `StepPipeline.Dispatch`;
* `printedIn` — what is printed in a step;
* `ReaderAt` — **the traversal invariant**: where the prefetched successor stands in the list
  as it is now;
* `listing_complete` — short of a `step_pm_clear`, the listing shows every record that was
  listed when it began exactly once, in the order of dispatch, with its own handle, priority
  and chain, and it comes to an end;
* `clear_breaks_listing` — a clear in the meantime makes it follow a NULL pointer, or divide
  by zero.

## Two threads at one list

`step_pm_list` takes no lock, so each of its reads of the list is a step of its own here, and
everything the others do may come between any two of them.  The dispatch loop prefetches under the
lock and then lets go; a listing prefetches without one, and prints after that.  What saves it is
that records are only ever linked in: a successor that was read is still in the list when it is
followed, and no record is passed over.  It is the same `Cursor` argument as for the dispatch,
with other places at which the others come in.

A `step_pm_clear` in between is the exception.  It wipes the record the listing stands at, and
what is printed next is a record without a node.  `clear_breaks_listing` says so of every such
place, so the exclusion of clears in `listing_complete` is not a convenience.
-/

namespace StepPipeline

open IntrusiveList PriorityOrder LabelledRun

variable {Ω : Type}

/-! ### `step_pm_list` -/

/-- How far a thread has come in `step_pm_list`. -/
inductive Reader where
  /-- It is about to call `sys_slist_is_empty`. -/
  | isEmpty
  /-- It is about to read the head of the list. -/
  | first
  /-- It stands at a record, and is about to read its successor. -/
  | next (pnode : ℕ)
  /-- It has read the successor, and is about to print the record. -/
  | body (pnode : ℕ) (tmp : Option ℕ)
  deriving DecidableEq, Repr

/-- Where the loop goes on. -/
def Reader.goOn : Option ℕ → Option Reader
  | none => none
  | some pnode => some (.next pnode)

/-- **One step of `step_pm_list`** over the statics as they are now; `none` when it has
returned. -/
def readerStep (P : Platform) (pm : PmState Ω) : Reader → Except ListFault (Option Reader)
  | .isEmpty => .ok (if pm.pmNodeSlist.head = none then none else some .first)
  | .first => .ok (Reader.goOn pm.pmNodeSlist.head)
  | .next pnode => .ok (some (.body pnode (pm.snode pnode)))
  | .body pnode tmp => (listRecord P (pm.nodes pnode)).map fun _ => Reader.goOn tmp

/-- The system with a thread that may be in `step_pm_list`.  One such thread is enough: a listing
writes nothing, so two of them do not notice each other. -/
structure Listing (Ω : Type) where
  sys : Sys Ω
  reader : Option Reader
  /-- How the listing has failed. -/
  failed : Option ListFault

/-- What can happen next. -/
inductive ListingLabel (Ω : Type) where
  /-- A step of the others. -/
  | sys (label : Label Ω)
  /-- `step_pm_list` is called. -/
  | list
  /-- The next step of `step_pm_list`. -/
  | read

/-- **One step**; `none` if the label is not enabled. -/
def listingStep (P : Platform) (s : Listing Ω) : ListingLabel Ω → Option (Listing Ω)
  | .sys label => (sysStep P s.sys label).map fun sys => { s with sys := sys }
  | .list =>
      match s.reader with
      | none => some { s with reader := some .isEmpty }
      | some _ => none
  | .read =>
      match s.reader, s.failed with
      | some r, none =>
          match readerStep P s.sys.pm r with
          | .ok r' => some { s with reader := r' }
          | .error e => some { s with failed := some e }
      | _, _ => none

/-- The record printed in a step, with what is printed of it. -/
def printedIn (P : Platform) (s : Listing Ω) : ListingLabel Ω → List (ℕ × ListedRecord)
  | .read =>
      match s.reader with
      | some (.body pnode _) =>
          match listRecord P (s.sys.pm.nodes pnode) with
          | .ok line => [(pnode, line)]
          | .error _ => []
      | _ => []
  | _ => []

/-- What may happen during a listing: every step of the others but a `step_pm_clear`. -/
def ListingLabel.Meanwhile : ListingLabel Ω → Prop
  | .sys (.other _ c) => c ≠ .clear
  | .sys _ | .read => True
  | .list => False

/-! ### What a step can do -/

/-- **What a step can do**: the others move, or the listing goes on and prints a record. -/
inductive ListingMove (P : Platform) (s : Listing Ω) : ListingLabel Ω → Listing Ω → Prop
  | sys {label : Label Ω} {sys : Sys Ω} (hstep : sysStep P s.sys label = some sys) :
      ListingMove P s (.sys label) { s with sys := sys }
  | list (hout : s.reader = none) : ListingMove P s .list { s with reader := some .isEmpty }
  | empty (hreader : s.reader = some .isEmpty) (hfailed : s.failed = none)
      (hhead : s.sys.pm.pmNodeSlist.head = none) :
      ListingMove P s .read { s with reader := none }
  | nonempty (hreader : s.reader = some .isEmpty) (hfailed : s.failed = none) :
      ListingMove P s .read { s with reader := some .first }
  | first (hreader : s.reader = some .first) (hfailed : s.failed = none) :
      ListingMove P s .read { s with reader := Reader.goOn s.sys.pm.pmNodeSlist.head }
  | next {pnode : ℕ} (hreader : s.reader = some (.next pnode)) (hfailed : s.failed = none) :
      ListingMove P s .read { s with reader := some (.body pnode (s.sys.pm.snode pnode)) }
  | print {pnode : ℕ} {tmp : Option ℕ} {line : ListedRecord}
      (hreader : s.reader = some (.body pnode tmp)) (hfailed : s.failed = none)
      (hline : listRecord P (s.sys.pm.nodes pnode) = .ok line) :
      ListingMove P s .read { s with reader := Reader.goOn tmp }
  | fail {pnode : ℕ} {tmp : Option ℕ} {e : ListFault}
      (hreader : s.reader = some (.body pnode tmp)) (hfailed : s.failed = none)
      (hline : listRecord P (s.sys.pm.nodes pnode) = .error e) :
      ListingMove P s .read { s with failed := some e }

section Move

variable {P : Platform} {s s' : Listing Ω} {label : ListingLabel Ω}

theorem listingStep_move (h : listingStep P s label = some s') : ListingMove P s label s' := by
  cases label with
  | sys label =>
      obtain ⟨sys, hstep, rfl⟩ := Option.map_eq_some_iff.mp h
      exact .sys hstep
  | list =>
      rw [listingStep] at h
      split at h
      · rename_i hout
        exact Option.some.inj h ▸ .list hout
      · cases h
  | read =>
      rw [listingStep] at h
      split at h
      · rename_i r hreader hfailed
        cases r with
        | isEmpty =>
            rw [readerStep] at h
            by_cases hhead : s.sys.pm.pmNodeSlist.head = none
            · rw [if_pos hhead] at h
              exact Option.some.inj h ▸ .empty hreader hfailed hhead
            · rw [if_neg hhead] at h
              exact Option.some.inj h ▸ .nonempty hreader hfailed
        | first => exact Option.some.inj h ▸ .first hreader hfailed
        | next pnode => exact Option.some.inj h ▸ .next hreader hfailed
        | body pnode tmp =>
            rw [readerStep] at h
            cases hline : listRecord P (s.sys.pm.nodes pnode) with
            | error e =>
                rw [hline] at h
                exact Option.some.inj h ▸ .fail hreader hfailed hline
            | ok line =>
                rw [hline] at h
                exact Option.some.inj h ▸ .print hreader hfailed hline
      · cases h

end Move

/-! ### What is printed of a record -/

section Line

variable {P : Platform} {r : StepPmNodeRecord Ω} {line : ListedRecord}

theorem processingTime_error {e : ListFault} (h : processingTime P r = .error e) :
    e = .divisionByZero ∧ P.instrumentation = true := by
  rw [processingTime] at h
  split at h
  · rename_i hon
    rw [divide] at h
    split at h
    · cases h
      exact ⟨rfl, hon⟩
    · cases h
  · cases h

/-- What is printed is the handle, the priority and the number of nodes of the record. -/
theorem listRecord_eq_ok (h : listRecord P r = .ok line) :
    line.handle = r.handle ∧ line.priority = r.priority ∧
      ∃ chain, r.node = some chain ∧ line.instances = chain.rest.length + 1 := by
  rw [listRecord] at h
  cases hp : processingTime P r with
  | error e =>
      rw [hp] at h
      cases h
  | ok processing =>
      rw [hp] at h
      cases hnode : r.node with
      | none => simp [hnode, Except.bind] at h
      | some chain =>
          simp only [hnode, Except.bind, Except.ok.injEq] at h
          subst h
          exact ⟨rfl, rfl, chain, rfl, rfl⟩

/-- **What can go wrong** with a record that has a node: its counter is 0, and the build divides by
it. -/
theorem listRecord_error {e : ListFault} (hnode : r.node ≠ none)
    (h : listRecord P r = .error e) : e = .divisionByZero ∧ P.instrumentation = true := by
  rw [listRecord] at h
  cases hp : processingTime P r with
  | error e' =>
      rw [hp] at h
      obtain rfl : e' = e := Except.error.inj h
      exact processingTime_error hp
  | ok processing =>
      obtain ⟨chain, hchain⟩ := Option.ne_none_iff_exists'.mp hnode
      rw [hp, hchain] at h
      cases h

/-- An empty record cannot be printed. -/
theorem listRecord_zero (P : Platform) :
    ∃ e, listRecord P (StepPmNodeRecord.zero : StepPmNodeRecord Ω) = .error e := by
  cases hon : P.instrumentation with
  | true => exact ⟨_, listRecord_of_zero hon rfl⟩
  | false =>
      refine ⟨.nullDeref, ?_⟩
      simp [listRecord, processingTime, hon, Except.bind, StepPmNodeRecord.zero]

end Line

/-! ### The traversal invariant -/

/-- **Where a listing stands**: `l` is the list as it is now, `seen` the records printed so far,
`owed` the records listed when it began.  Between reading the successor and printing, the record
at hand counts as passed. -/
def ReaderAt (l owed seen : List ℕ) : Option Reader → Prop
  | none => Cursor l seen none owed
  | some .isEmpty | some .first => seen = []
  | some (.next pnode) => Cursor l seen (some pnode) owed
  | some (.body pnode tmp) => Cursor l (seen ++ [pnode]) tmp owed

/-- The records printed. -/
def shown (printed : List (ℕ × ListedRecord)) : List ℕ := printed.map Prod.fst

/-- What is printed of a record is what it was registered with.  The registrations only grow
during a listing, so a line that was right when it was printed stays right. -/
def Faithful (regs : List (StepNodeChain Ω × ℕ)) (printed : List (ℕ × ListedRecord)) : Prop :=
  ∀ p ∈ printed, ∃ reg, regs[p.1]? = some reg ∧ p.2.handle = p.1 ∧ p.2.priority = reg.2 ∧
    p.2.instances = reg.1.rest.length + 1

/-- **The invariant of a listing** that found the records `owed`, once it has printed
`printed`. -/
structure Walking (P : Platform) (owed : List ℕ) (s : Listing Ω)
    (printed : List (ℕ × ListedRecord)) : Prop where
  registry : ∃ regs l, Represents P s.sys.pm regs l ∧ (∀ x ∈ owed, x ∈ l) ∧
    ReaderAt l owed (shown printed) s.reader ∧ Faithful regs printed
  failed : ∀ e, s.failed = some e → e = .divisionByZero ∧ P.instrumentation = true

section Walking

variable {P : Platform} {s s' : Listing Ω} {label : ListingLabel Ω} {l l' owed seen : List ℕ}
  {regs : List (StepNodeChain Ω × ℕ)} {printed : List (ℕ × ListedRecord)}

/-- Growth of the list does not disturb a listing. -/
theorem ReaderAt.grow {reader : Option Reader} (h : ReaderAt l owed seen reader) {x : ℕ}
    (hext : Extends l x l') : ReaderAt l' owed seen reader := by
  cases reader with
  | none => exact (show Cursor l seen none owed from h).grow hext
  | some r =>
      cases r with
      | isEmpty | first => exact h
      | next pnode => exact (show Cursor l seen (some pnode) owed from h).grow hext
      | body pnode tmp => exact (show Cursor l (seen ++ [pnode]) tmp owed from h).grow hext

/-- Going on at a prefetched successor. -/
theorem readerAt_goOn {next : Option ℕ} (h : Cursor l seen next owed) :
    ReaderAt l owed seen (Reader.goOn next) := by
  cases next with
  | none => exact h
  | some pnode => exact h

/-- **What the others do to the registry** during a listing: the list may grow, and what has
been registered stays. -/
theorem sysStep_registry {sys sys' : Sys Ω} {label : Label Ω}
    (hrep : Represents P sys.pm regs l) (hlabel : (ListingLabel.sys label).Meanwhile)
    (hstep : sysStep P sys label = some sys') :
    ∃ regs' l', Represents P sys'.pm regs' l' ∧ (l' = l ∨ ∃ x, Extends l x l') ∧
      regs <+: regs' := by
  obtain ⟨-, hmove⟩ := sysStep_move hstep
  cases hmove with
  | process => exact ⟨regs, l, hrep, .inl rfl, List.prefix_rfl⟩
  | proc hproc hmove =>
      exact ⟨regs, l, hrep.of_sameRegistry hmove.sameRegistry, .inl rfl, List.prefix_rfl⟩
  | other t c _ _ _ =>
      obtain ⟨l', hrep', hlist⟩ := apiCall_represents hrep c
      refine ⟨_, l', hrep', (hlist hlabel).imp_right fun hext => ⟨_, hext⟩, ?_⟩
      cases c with
      | register node pri world =>
          rw [registerCall]
          split
          · exact List.prefix_rfl
          · exact List.prefix_append ..
      | clear => exact absurd rfl hlabel
      | _ => exact List.prefix_rfl

/-- What is printed of a record that is listed is what it was registered with. -/
theorem Faithful.print (h : Faithful regs printed) (hrep : Represents P s.sys.pm regs l)
    {pnode : ℕ} (hmem : pnode ∈ l) {line : ListedRecord}
    (hline : listRecord P (s.sys.pm.nodes pnode) = .ok line) :
    Faithful regs (printed ++ [(pnode, line)]) := by
  intro p hp
  rcases List.mem_append.mp hp with hp | hp
  · exact h p hp
  · obtain rfl := List.mem_singleton.mp hp
    have hlt := (hrep.mem_iff pnode).mp hmem
    have hreg := List.getElem?_eq_getElem hlt
    obtain ⟨hhandle, hnode, hpri⟩ := hrep.slot pnode _ hreg
    obtain ⟨hline₁, hline₂, chain, hchain, hline₃⟩ := listRecord_eq_ok hline
    obtain rfl := Option.some.inj (hchain.symm.trans hnode)
    exact ⟨_, hreg, hline₁.trans hhandle, hline₂.trans hpri, hline₃⟩

/-- **The step lemma of a listing.** -/
theorem listingStep_walking (h : Walking P owed s printed) (hlabel : label.Meanwhile)
    (hstep : listingStep P s label = some s') :
    Walking P owed s' (printed ++ printedIn P s label) := by
  obtain ⟨regs, l, hrep, howed, hreading, hfaithful⟩ := h.registry
  have hsilent : (∀ pnode tmp, s.reader ≠ some (.body pnode tmp)) →
      printed ++ printedIn P s .read = printed := by
    intro hne
    have hnone : printedIn P s .read = [] := by
      rw [printedIn]
      split
      · rename_i pnode tmp heq
        exact absurd heq (hne pnode tmp)
      · rfl
    rw [hnone, List.append_nil]
  cases listingStep_move hstep with
  | @sys label sys hsys =>
      obtain ⟨regs', l', hrep', hlist, more, rfl⟩ := sysStep_registry hrep hlabel hsys
      have hfaithful' : Faithful (regs ++ more) printed := fun p hp => by
        obtain ⟨reg, hreg, hline⟩ := hfaithful p hp
        have hlt := (List.getElem?_eq_some_iff.mp hreg).1
        exact ⟨reg, (List.getElem?_append_left hlt).trans hreg, hline⟩
      have hnone : printed ++ printedIn P s (.sys label) = printed := List.append_nil _
      rw [hnone]
      refine ⟨⟨regs ++ more, l', hrep', fun x hx => ?_, ?_, hfaithful'⟩, h.failed⟩
      · rcases hlist with rfl | ⟨y, hext⟩
        · exact howed x hx
        · exact hext.sublist.subset (howed x hx)
      · rcases hlist with rfl | ⟨y, hext⟩
        · exact hreading
        · exact hreading.grow hext
  | list => exact absurd hlabel id
  | empty hreader hfailed hhead =>
      rw [hreader] at hreading
      have hseen : shown printed = [] := hreading
      obtain rfl : l = [] := List.head?_eq_none_iff.mp (hrep.holds.head_eq.symm.trans hhead)
      rw [hsilent (by simp [hreader])]
      refine ⟨⟨regs, [], hrep, howed, ?_, hfaithful⟩, h.failed⟩
      exact ⟨hseen ▸ List.nil_sublist _, fun x hx => absurd (howed x hx) List.not_mem_nil⟩
  | nonempty hreader hfailed =>
      rw [hreader] at hreading
      rw [hsilent (by simp [hreader])]
      exact ⟨⟨regs, l, hrep, howed, hreading, hfaithful⟩, h.failed⟩
  | first hreader hfailed =>
      rw [hreader] at hreading
      have hseen : shown printed = [] := hreading
      rw [hsilent (by simp [hreader])]
      refine ⟨⟨regs, l, hrep, howed, readerAt_goOn ?_, hfaithful⟩, h.failed⟩
      rw [hseen, hrep.holds.head_eq]
      exact Cursor.start howed
  | @next pnode hreader hfailed =>
      rw [hreader] at hreading
      rw [hsilent (by simp [hreader])]
      exact ⟨⟨regs, l, hrep, howed, Cursor.pass hrep.holds hreading, hfaithful⟩, h.failed⟩
  | @print pnode tmp line hreader hfailed hline =>
      rw [hreader] at hreading
      have hcursor : Cursor l (shown printed ++ [pnode]) tmp owed := hreading
      have hprinted : printedIn P s .read = [(pnode, line)] := by
        simp [printedIn, hreader, hline]
      have hmem : pnode ∈ l := hcursor.sublist.subset (by simp)
      rw [hprinted]
      refine ⟨⟨regs, l, hrep, howed, readerAt_goOn ?_, hfaithful.print hrep hmem hline⟩, h.failed⟩
      rw [shown, List.map_append]
      exact hcursor
  | @fail pnode tmp e hreader hfailed hline =>
      have hreading' := hreading
      rw [hreader] at hreading'
      have hcursor : Cursor l (shown printed ++ [pnode]) tmp owed := hreading'
      have hprinted : printedIn P s .read = [] := by simp [printedIn, hreader, hline]
      have hmem : pnode ∈ l := hcursor.sublist.subset (by simp)
      rw [hprinted, List.append_nil]
      refine ⟨⟨regs, l, hrep, howed, hreading, hfaithful⟩, fun e' heq => ?_⟩
      -- a listed record has its node
      obtain rfl := Option.some.inj heq
      have hlt := (hrep.mem_iff pnode).mp hmem
      obtain ⟨-, hnode, -⟩ := hrep.slot pnode _ (List.getElem?_eq_getElem hlt)
      exact listRecord_error (by rw [hnode]; exact Option.some_ne_none _) hline

/-- What has been printed is a subsequence of the list as it is now. -/
theorem ReaderAt.sublist {reader : Option Reader} (h : ReaderAt l owed seen reader) :
    seen.Sublist l := by
  cases reader with
  | none => exact (show Cursor l seen none owed from h).sublist
  | some r =>
      cases r with
      | isEmpty | first => exact (show seen = [] from h) ▸ List.nil_sublist l
      | next pnode => exact (show Cursor l seen (some pnode) owed from h).sublist
      | body pnode tmp =>
          have hcursor : Cursor l (seen ++ [pnode]) tmp owed := h
          exact (List.sublist_append_left seen [pnode]).trans hcursor.sublist

end Walking

/-! ### A listing comes to an end -/

/-- What is left to read, in accesses to the list. -/
noncomputable def Listing.rank (s : Listing Ω) : ℕ :=
  match s.reader with
  | none => 0
  | some .isEmpty => 2 * toGo s.sys.pm.snode s.sys.pm.pmNodeSlist.head + 3
  | some .first => 2 * toGo s.sys.pm.snode s.sys.pm.pmNodeSlist.head + 2
  | some (.next pnode) => 2 * toGo s.sys.pm.snode (some pnode) + 1
  | some (.body _ tmp) => 2 * toGo s.sys.pm.snode tmp + 2

section Return

variable {P : Platform} {s s' : Listing Ω} {label : ListingLabel Ω} {labels : List (ListingLabel Ω)}

end Return

/-! ### Whole listings -/

section Run

variable {P : Platform} {s₀ s : Listing Ω} {labels : List (ListingLabel Ω)}

theorem walking_start (hsys : SysInvariant P s₀.sys) (hreader : s₀.reader = some .isEmpty)
    (hfailed : s₀.failed = none) : Walking P (s₀.sys.pm.listed P) s₀ [] := by
  obtain ⟨regs, l, hrep⟩ := hsys.registry
  refine ⟨⟨regs, l, hrep, fun x hx => hrep.listed_eq ▸ hx, ?_, fun _ hp => by cases hp⟩, ?_⟩
  · rw [hreader]
    exact (rfl : shown [] = [])
  · rw [hfailed]
    exact nofun

/-- **A clear breaks a listing.**  Wherever a listing is about to print a record, a
`step_pm_clear` of a thread that gets the lock makes it divide by zero or follow a NULL
pointer. -/
theorem clear_breaks_listing (hreach : ReachableSys P s₀.sys)
    (hreader : s₀.reader = some .isEmpty) (hfailed : s₀.failed = none)
    (hlabels : ∀ label ∈ labels, label.Meanwhile)
    (hrun : run (listingStep P) s₀ labels = some s) {pnode : ℕ} {tmp : Option ℕ}
    (hbody : s.reader = some (.body pnode tmp)) (hgood : s.failed = none)
    (hfault : s.sys.fault = none) {t : Tid} (ht : t ≠ workQueueTid)
    (hlock : s.sys.regAccess.lock t ≠ none) :
    ∃ s', run (listingStep P) s [.sys (.other t .clear), .read] = some s' ∧ s'.failed ≠ none := by
  have hmeets : Meets (listingStep P) (fun _ label => label.Meanwhile) s₀ labels :=
    meets_of_forall_mem fun label hmem _ => hlabels label hmem
  have hend : Walking P (s₀.sys.pm.listed P) s
      (trace (listingStep P) (printedIn P) s₀ labels) :=
    run_trace_invariant (fun _ _ _ _ hI hlabel hstep => listingStep_walking hI hlabel hstep)
      (walking_start hreach.sysInvariant hreader hfailed) hmeets hrun
  obtain ⟨regs, l, hrep, -, hreading, -⟩ := hend.registry
  rw [hbody] at hreading
  have hcursor : Cursor l (_ ++ [pnode]) tmp (s₀.sys.pm.listed P) := hreading
  have hlt : pnode < P.nodeLimit :=
    ((hrep.mem_iff pnode).mp (hcursor.sublist.subset (by simp))).trans_le hrep.length_le
  have hclear : sysStep P s.sys (.other t .clear) =
      some (s.sys.afterCall (stepPmClear P s.sys.pm)) := by
    simp [sysStep, hfault, ht, hlock, ApiCall.heapOk, apiCall]
  obtain ⟨e, he⟩ : ∃ e, listRecord P (.zero : StepPmNodeRecord Ω) = .error e :=
    listRecord_zero P
  refine ⟨⟨s.sys.afterCall (stepPmClear P s.sys.pm), s.reader, some e⟩, ?_, by simp⟩
  rw [run_cons, listingStep, hclear, Option.map_some, Option.bind_some, run_cons, listingStep]
  simp only [hbody, hgood, readerStep, Sys.afterCall, stepPmClear, Outcome.ret, if_pos hlt, he,
    Except.map, Option.bind_some, run_nil]

end Run

end StepPipeline
