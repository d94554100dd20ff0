import StepPipeline.DispatchReturns

/-!
# How long the registry is locked

`step_pm_process` gives `step_pm_reg_access` back around the execution of every chain, but not
between disabled records, and it follows links it has fetched before the registry was cleared
and filled again.  How many steps it takes at most until a call that waits for the lock gets it.

* `InArray` — the links of the records, and the prefetched one, lead to records of the array;
* `Sys.lockLeft` — how many steps of the work-queue thread there are at most until the lock is
  given back;
* `held_through` — disabled records are passed over one by one, and the lock is kept;
* `lock_latency` — **the bound**, whoever else moves: one step for each record, and one; and
  that it is reached.

## What is counted

A step is one of `sysStep`: under the lock, one turn of the loop.  How long a turn takes is not
bounded by anything here, as it runs the `evaluate_handler` and the `matched_handler` of the
record; the steps bound how often that can happen.  What counts is the node limit and not the
length of the list: a dispatch that has followed a link from before a clear may be outside of
the list the registry has now, and the records it passes are only known to be in the array and
not to be met twice, since the links come to an end (`Ends`).

## Where the bound stops

The last step under the lock frees the measurement.  `step_sp_free` waits for
`step_sp_alloc_mtx`, which an allocation may have left locked (`Pipeline`); what is shown of a
dispatch left alone is therefore that it comes to the end of its loop, `Sys.BehindLoop`, with
nothing but `step_sp_free` and the release in front of it, and not that it gets past that.
-/

namespace StepPipeline

open IntrusiveList LabelledRun

variable {Ω : Type}

/-! ### Where the links lead -/

/-- **The links lead to records of the array**, and the loop body has fetched the successor of the
record it is on.  The array is finite and links come to an end, so the way from any record to the
end of the list is bounded by its size, also for a list that has been cut by a clear. -/
structure InArray (P : Platform) (s : Sys Ω) : Prop where
  links : ∀ x y, s.pm.snode x = some y → y < P.nodeLimit
  tmp : ∀ p q, s.proc = some p → p.tmp = some q → q < P.nodeLimit
  visit : ∀ p, s.proc = some p → p.pc = .visit →
    p.tmp = s.pm.snode p.pnode ∧ p.pnode < P.nodeLimit

section InArray

variable {P : Platform} {s s' : Sys Ω} {pm : PmState Ω} {regs : List (StepNodeChain Ω × ℕ)}
  {l : List ℕ} {label : Label Ω}

theorem inArray_init (P : Platform) : InArray P (Sys.init P : Sys Ω) where
  links _ _ h := by cases h
  tmp _ _ h := by cases h
  visit _ h := by cases h

/-- A call leaves them in the array. -/
theorem apiCall_links (hrep : Represents P pm regs l)
    (h : ∀ x y, pm.snode x = some y → y < P.nodeLimit) (c : ApiCall Ω) :
    ∀ x y, (apiCall P pm c).pm.snode x = some y → y < P.nodeLimit := by
  have hmove := apiCall_move hrep.counter_le c
  generalize (apiCall P pm c).pm = pm' at hmove
  cases hmove with
  | add node pri _ hlimit =>
      refine (hrep.linkRecord_places node pri).forall_link (fun x y hxy => ?_) fun y hy => ?_
      · have hfilled : Function.update pm.snode pm.handleCounter none x = some y := hxy
        by_cases hx : x = pm.handleCounter
        · rw [hx, Function.update_self] at hfilled
          cases hfilled
        · rw [Function.update_of_ne hx] at hfilled
          exact h x y hfilled
      · have hlisted : ∀ z ∈ l, z < P.nodeLimit :=
          fun z hz => ((hrep.mem_iff z).mp hz).trans_le hrep.length_le
        rw [← PriorityOrder.ahead_append_behind (pm.fillRecord node pri).priorityOf pri l]
          at hlisted
        rcases List.mem_append.mp hy with hy | hy
        · exact hlisted y (List.mem_append_left _ hy)
        · rcases List.mem_cons.mp hy with rfl | hy
          · exact hlimit
          · exact hlisted y (List.mem_append_right _ hy)
  | clear =>
      intro x y hxy
      have hwiped : (if x < P.nodeLimit then none else pm.snode x) = some y := hxy
      split at hwiped
      · cases hwiped
      · exact h x y hwiped
  | _ => exact h

/-- Going on to a record of the array. -/
theorem goOn_inArray {p : Proc Ω} {snode : Links ℕ} {next : Option ℕ}
    (hlinks : ∀ x y, snode x = some y → y < P.nodeLimit)
    (htmp : ∀ q, p.tmp = some q → q < P.nodeLimit) (hnext : ∀ q, next = some q → q < P.nodeLimit) :
    (∀ q, (p.goOn snode next).tmp = some q → q < P.nodeLimit) ∧
      ((p.goOn snode next).pc = .visit →
        (p.goOn snode next).tmp = snode (p.goOn snode next).pnode ∧
          (p.goOn snode next).pnode < P.nodeLimit) := by
  cases next with
  | none => exact ⟨htmp, fun h => by cases h⟩
  | some q => exact ⟨hlinks q, fun _ => ⟨rfl, hnext q rfl⟩⟩

/-- **Every step of the system keeps it.** -/
theorem sysStep_inArray (hsys : SysInvariant P s) (h : InArray P s)
    (hstep : sysStep P s label = some s') : InArray P s' := by
  obtain ⟨regs, l, hrep⟩ := hsys.registry
  obtain ⟨-, hmove⟩ := sysStep_move hstep
  cases hmove with
  | process mesAddr mes free _ =>
      refine ⟨h.links, fun p q hp hq => ?_, fun p hp hpc => ?_⟩
      · obtain rfl := Option.some.inj hp
        cases hq
      · obtain rfl := Option.some.inj hp
        cases hpc
  | other t c ht hlock _ =>
      refine ⟨apiCall_links hrep h.links c, h.tmp, fun p hp hpc => ?_⟩
      -- the lock is held: a flag is written
      have hlocks := not_locks_of_locked hsys.lock hp (hpc ▸ trivial) ht hlock
      have hsnode : (apiCall P s.pm c).pm.snode = s.pm.snode := by
        have hmove := apiCall_move hrep.counter_le c
        generalize (apiCall P s.pm c).pm = pm' at hmove
        cases hmove with
        | add | clear => exact absurd rfl hlocks
        | _ => rfl
      obtain ⟨htmp, hpnode⟩ := h.visit p hp hpc
      exact ⟨htmp.trans (congrFun hsnode p.pnode).symm, hpnode⟩
  | @proc inp p _ hproc hmove =>
      have hgoOn : ∀ r : Sys Ω, r.pm.snode = s.pm.snode → ∀ next,
          r.proc = some (p.goOn s.pm.snode next) → (∀ q, next = some q → q < P.nodeLimit) →
            InArray P r := by
        intro r hr next hrproc hnext
        obtain ⟨htmp, hvisit⟩ := goOn_inArray h.links (h.tmp p · hproc) hnext
        refine ⟨hr ▸ h.links, fun q x hq => ?_, fun q hq => ?_⟩
        · obtain rfl := Option.some.inj (hrproc.symm.trans hq)
          exact htmp x
        · obtain rfl := Option.some.inj (hrproc.symm.trans hq)
          rw [hr]
          exact hvisit
      have hstay : ∀ r : Sys Ω, r.pm.snode = s.pm.snode → ∀ q : Proc Ω, r.proc = some q →
          q.tmp = p.tmp → q.pc ≠ .visit → InArray P r := by
        intro r hr q hrproc hq hpc
        refine ⟨hr ▸ h.links, fun q' x hq' hx => ?_, fun q' hq' hpc' => ?_⟩
        · obtain rfl := Option.some.inj (hrproc.symm.trans hq')
          exact h.tmp p x hproc (hq ▸ hx)
        · obtain rfl := Option.some.inj (hrproc.symm.trans hq')
          exact absurd hpc' hpc
      cases hmove with
      | crash u => exact ⟨h.links, h.tmp, h.visit⟩
      | lock | noMatch | enter => exact hstay _ rfl _ rfl rfl (by simp)
      | head hpc =>
          refine hgoOn _ rfl _ rfl fun q hq => ?_
          have hmem : q ∈ l := List.mem_of_mem_head? (hrep.holds.head_eq.symm.trans hq)
          exact ((hrep.mem_iff q).mp hmem).trans_le hrep.length_le
      | skip hpc _ => exact hgoOn _ rfl _ rfl (h.tmp p · hproc)
      | chain hpc p' hsame hpc' =>
          refine hstay _ rfl _ rfl hsame.tmp fun hvisit => ?_
          rw [hvisit] at hpc'
          exact hpc'
      | chainDone hpc p' hsame hpc' =>
          refine hstay _ rfl _ rfl hsame.tmp fun hvisit => ?_
          rw [hvisit] at hpc'
          cases hpc'
      | relock hpc m _ =>
          exact hgoOn _ (s.pm.account_sameRegistry P p.pnode p.instr inp.cycles).snode _ rfl
            (h.tmp p · hproc)
      | tail hpc =>
          refine ⟨h.links, fun q x hq => ?_, fun q hq => ?_⟩
          · cases hq
          · cases hq

/-- …and every run. -/
theorem run_inArray {ls : List (Label Ω)} (hrun : run (sysStep P) (Sys.init P) ls = some s) :
    InArray P s ∧ ReturnInvariant P s := by
  have hstep : ∀ (s : Sys Ω) l s', InArray P s ∧ ReturnInvariant P s → sysStep P s l = some s' →
      InArray P s' ∧ ReturnInvariant P s' :=
    fun s l s' h hstep => ⟨sysStep_inArray h.2.sys h.1 hstep, sysStep_returnInvariant h.2 hstep⟩
  exact run_preserves hstep ⟨inArray_init P, returnInvariant_init P⟩ hrun

end InArray

/-! ### What is left to do under the lock -/

/-- How many steps of the loop there are at most until the lock is given back.  A record that is
enabled gives it back at once, at the end of the loop body, so the longest way is through records
that are disabled. -/
noncomputable def Proc.lockLeft (pm : PmState Ω) (p : Proc Ω) : ℕ :=
  match p.pc with
  | .head => toGo pm.snode pm.pmNodeSlist.head + 2
  | .visit => toGo pm.snode (some p.pnode) + 1
  | .tail => 1
  | _ => 0

/-- **How many steps** of the work-queue thread there are; after a fault there is nothing to do. -/
noncomputable def Sys.lockLeft (s : Sys Ω) : ℕ :=
  if s.fault ≠ none then 1 else (s.proc.map (Proc.lockLeft s.pm)).getD 0

/-- The steps of the work-queue thread. -/
def Label.isProc : Label Ω → Bool
  | .proc _ => true
  | .process _ _ _ | .other _ _ => false

section Left

variable {P : Platform} {s s' : Sys Ω} {p : Proc Ω} {label : Label Ω} {inp : Inputs Ω}

theorem lockLeft_eq (hfault : s.fault = none) (hproc : s.proc = some p) :
    s.lockLeft = p.lockLeft s.pm := by
  rw [Sys.lockLeft, if_neg (not_not.mpr hfault), hproc]
  rfl

/-- Whoever holds the lock has something left to do. -/
theorem lockLeft_pos (hlock : LockDiscipline s) (hheld : s.regAccess ≠ .free) :
    0 < s.lockLeft := by
  by_cases hfault : s.fault = none
  · cases hproc : s.proc with
    | none =>
        rw [LockDiscipline, hproc] at hlock
        exact absurd hlock hheld
    | some p =>
        have hlocked : p.pc.Locked := by
          by_contra hpc
          exact hheld (hlock.unlocked hproc hpc)
        rw [lockLeft_eq hfault hproc, Proc.lockLeft]
        cases hpc : p.pc with
        | head | visit | tail => exact Nat.succ_pos _
        | lock | call | error | subsHead | subs | subsNext | relock =>
            rw [hpc] at hlocked
            exact absurd hlocked id
  · rw [Sys.lockLeft, if_pos hfault]
    exact Nat.one_pos

/-- In the loop there is a record to pass, and the end of the list to find. -/
theorem two_le_lockLeft (hret : ReturnInvariant P s) (hheld : s.regAccess ≠ .free)
    (hfault : s.fault = none) (hbehind : ¬∃ p, s.proc = some p ∧ p.pc = .tail) :
    2 ≤ s.lockLeft := by
  have hlock := hret.sys.lock
  cases hproc : s.proc with
  | none =>
      rw [LockDiscipline, hproc] at hlock
      exact absurd hlock hheld
  | some p =>
      have hlocked : p.pc.Locked := by
        by_contra hpc
        exact hheld (hlock.unlocked hproc hpc)
      rw [lockLeft_eq hfault hproc, Proc.lockLeft]
      cases hpc : p.pc with
      | head => exact Nat.le_add_left 2 _
      | visit => exact Nat.succ_le_succ (hret.snode.toGo_some p.pnode ▸ Nat.succ_pos _)
      | tail => exact absurd ⟨p, hproc, hpc⟩ hbehind
      | lock | call | error | subsHead | subs | subsNext | relock =>
          rw [hpc] at hlocked
          exact absurd hlocked id

/-- **One step for each record, and two.** -/
theorem lockLeft_le (h : InArray P s) (hret : ReturnInvariant P s) :
    s.lockLeft ≤ P.nodeLimit + 2 := by
  have hcard : ∀ start, (∀ x, start = some x → x < P.nodeLimit) →
      toGo s.pm.snode start ≤ P.nodeLimit := by
    intro start hstart
    have hle := toGo_le_card (Finset.range P.nodeLimit)
      (fun x y hxy => Finset.mem_range.mpr (h.links x y hxy))
      (fun x hx => Finset.mem_range.mpr (hstart x hx))
    rwa [Finset.card_range] at hle
  by_cases hfault : s.fault = none
  · cases hproc : s.proc with
    | none =>
        rw [Sys.lockLeft, if_neg (not_not.mpr hfault), hproc]
        exact Nat.zero_le _
    | some p =>
        rw [lockLeft_eq hfault hproc, Proc.lockLeft]
        cases hpc : p.pc with
        | head =>
            obtain ⟨regs, l, hrep⟩ := hret.sys.registry
            refine Nat.add_le_add_right (hcard _ fun x hx => ?_) 2
            have hmem : x ∈ l := List.mem_of_mem_head? (hrep.holds.head_eq.symm.trans hx)
            exact ((hrep.mem_iff x).mp hmem).trans_le hrep.length_le
        | visit =>
            have hpnode : ∀ x, some p.pnode = some x → x < P.nodeLimit :=
              fun x hx => Option.some.inj hx ▸ (h.visit p hproc hpc).2
            exact (Nat.add_le_add_right (hcard _ hpnode) 1).trans (Nat.le_succ _)
        | tail => exact Nat.le_add_left 1 (P.nodeLimit + 1)
        | lock | call | error | subsHead | subs | subsNext | relock => exact Nat.zero_le _
  · rw [Sys.lockLeft, if_pos hfault]
    exact Nat.le_add_left 1 (P.nodeLimit + 1)

/-- Going on in the list takes fewer steps than standing in front of it. -/
theorem lockLeft_goOn {r : Sys Ω} {next : Option ℕ} (hfault : r.fault = none)
    (hproc : r.proc = some (p.goOn r.pm.snode next)) :
    r.lockLeft ≤ toGo r.pm.snode next + 1 := by
  rw [lockLeft_eq hfault hproc]
  cases next with
  | none => exact Nat.le_add_left 1 _
  | some q => exact le_rfl

/-- **Under the lock a step of the work-queue thread** lowers what is left. -/
theorem lockLeft_lt (h : InArray P s) (hret : ReturnInvariant P s) (hheld : s.regAccess ≠ .free)
    (hstep : sysStep P s (.proc inp) = some s') (hheld' : s'.regAccess ≠ .free) :
    s'.lockLeft < s.lockLeft := by
  obtain ⟨hfault, hmove⟩ := sysStep_move hstep
  cases hmove with
  | @proc _ p _ hproc hmove =>
      have hlocked : p.pc.Locked := by
        by_contra hpc
        exact hheld (hret.sys.lock.unlocked hproc hpc)
      have hunlock : s.regAccess.unlock workQueueTid = .free := by
        rw [hret.sys.lock.locked hproc hlocked]
        rfl
      have hleft : s.lockLeft = p.lockLeft s.pm := lockLeft_eq hfault hproc
      rw [Proc.lockLeft] at hleft
      cases hmove with
      | crash u =>
          have hcrash : (s.crash u).lockLeft = 1 := by
            rw [Sys.lockLeft, if_pos (by simp [Sys.crash])]
          rw [hcrash, hleft]
          cases hpc : p.pc with
          | head => exact Nat.le_add_left 2 _
          | visit => exact Nat.succ_lt_succ (hret.snode.toGo_some p.pnode ▸ Nat.succ_pos _)
          | tail =>
              -- a dispatch that returns does not fail
              simp only [sysStep, hfault, hproc, procStep, hpc] at hstep
              have hnone : none = some u := congrArg Sys.fault (Option.some.inj hstep)
              cases hnone
          | lock | call | error | subsHead | subs | subsNext | relock =>
              rw [hpc] at hlocked
              exact absurd hlocked id
      | head hpc =>
          rw [hpc] at hleft
          have hle : ({ s with proc := some (p.goOn s.pm.snode s.pm.pmNodeSlist.head) } :
              Sys Ω).lockLeft ≤ toGo s.pm.snode s.pm.pmNodeSlist.head + 1 :=
            lockLeft_goOn hfault rfl
          rw [hleft]
          exact Nat.lt_succ_of_le hle
      | skip hpc _ =>
          rw [hpc] at hleft
          have hle : ({ s with
              log := s.log ++ [.visit p.pnode false]
              proc := some (p.goOn s.pm.snode p.tmp) } : Sys Ω).lockLeft ≤
                toGo s.pm.snode p.tmp + 1 :=
            lockLeft_goOn hfault rfl
          have htoGo : toGo s.pm.snode p.tmp + 1 = toGo s.pm.snode (some p.pnode) := by
            rw [hret.snode.toGo_some, (h.visit p hproc hpc).1]
          rw [htoGo] at hle
          rw [hleft]
          exact Nat.lt_succ_of_le hle
      | noMatch | enter | tail => exact absurd hunlock hheld'
      | lock hpc | relock hpc =>
          rw [hpc] at hlocked
          exact absurd hlocked id
      | chain hpc | chainDone hpc => exact absurd hlocked hpc.not_locked

/-- **Under the lock the others** do not raise it.  The calls that write links wait for the lock;
those that do not wait write a flag, which the count does not depend on. -/
theorem lockLeft_other (hret : ReturnInvariant P s) (hheld : s.regAccess ≠ .free)
    (hlabel : ¬label.isProc) (hstep : sysStep P s label = some s') :
    s'.lockLeft ≤ s.lockLeft := by
  have hlock := hret.sys.lock
  obtain ⟨regs, l, hrep⟩ := hret.sys.registry
  obtain ⟨hfault, hmove⟩ := sysStep_move hstep
  cases hmove with
  | process _ _ _ hproc =>
      rw [LockDiscipline, hproc] at hlock
      exact absurd hlock hheld
  | proc => exact absurd rfl hlabel
  | other t c ht hcall _ =>
      by_cases hfault' : (s.afterCall (apiCall P s.pm c)).fault = none
      · cases hproc : s.proc with
        | none =>
            rw [LockDiscipline, hproc] at hlock
            exact absurd hlock hheld
        | some p =>
            have hlocked : p.pc.Locked := by
              by_contra hpc
              exact hheld (hlock.unlocked hproc hpc)
            have hlocks := not_locks_of_locked hlock hproc hlocked ht hcall
            have hsame : p.lockLeft (apiCall P s.pm c).pm = p.lockLeft s.pm := by
              have hmove := apiCall_move hrep.counter_le c
              generalize (apiCall P s.pm c).pm = pm' at hmove
              cases hmove with
              | setEnabled => rfl
              | full | add | clear | refused | subscribe => exact absurd rfl hlocks
            have hafter : (s.afterCall (apiCall P s.pm c)).proc = some p := hproc
            rw [lockLeft_eq hfault' hafter, lockLeft_eq hfault hproc]
            exact hsame.le
      · rw [Sys.lockLeft, if_pos hfault']
        exact lockLeft_pos hlock hheld

/-- What is left is lowered by each step of the work-queue thread. -/
theorem lockLeft_run {ls : List (Label Ω)} :
    ∀ {s : Sys Ω}, InArray P s ∧ ReturnInvariant P s →
      Always (sysStep P) (fun s => s.regAccess ≠ .free) s ls → run (sysStep P) s ls = some s' →
        ls.countP Label.isProc + s'.lockLeft ≤ s.lockLeft := by
  induction ls with
  | nil =>
      intro s _ _ hrun
      cases hrun
      exact (Nat.zero_add _).le
  | cons l ls ih =>
      intro s h hheld hrun
      obtain ⟨t, ht, hrun'⟩ := (run_cons_eq_some _).mp hrun
      have hinv : InArray P t ∧ ReturnInvariant P t :=
        ⟨sysStep_inArray h.2.sys h.1 ht, sysStep_returnInvariant h.2 ht⟩
      have hrest := ih hinv (hheld.2 t ht) hrun'
      cases hl : l.isProc with
      | true =>
          cases l with
          | process | other => cases hl
          | proc inp =>
              have hlt := lockLeft_lt h.1 h.2 hheld.1 ht (hheld.2 t ht).head
              rw [List.countP_cons_of_pos hl]
              omega
      | false =>
          have hle := lockLeft_other h.2 hheld.1 (by simp [hl]) ht
          rw [List.countP_cons_of_neg (by simp [hl])]
          omega

end Left

/-! ### The bound is reached -/

section Reached

variable {P : Platform} {s : Sys Ω} {p : Proc Ω}

/-- Every record given out is disabled, `k` of them, and nothing goes on. -/
structure AllDisabled (P : Platform) (s : Sys Ω) (k : ℕ) : Prop where
  fault : s.fault = none
  free : s.regAccess = .free
  idle : s.proc = none
  registry : ∃ regs l, Represents P s.pm regs l ∧ regs.length = k
  disabled : ∀ i < k, (s.pm.nodes i).enabled = false

/-- Registering a chain and disabling it. -/
def registerDisabled (handle : ℕ) (world : ℕ → Ω) : List (Label Ω) :=
  [.other 1 (.register silentChain 0 world), .other 1 (.disable handle)]

/-- One record more. -/
theorem AllDisabled.succ {k : ℕ} (h : AllDisabled P s k) (hk : k < P.nodeLimit) (world : ℕ → Ω) :
    ∃ t, run (sysStep P) s (registerDisabled k world) = some t ∧ AllDisabled P t (k + 1) := by
  obtain ⟨regs, l, hrep, hlength⟩ := h.registry
  have hcounter : s.pm.handleCounter = k := hrep.counter_eq.trans hlength
  obtain ⟨l', -, hrep'⟩ := hrep.add (hlength ▸ hk) silentChain 0
  let added : PmState Ω := s.pm.addRecord P silentChain 0
  let disabled : PmState Ω :=
    { added with nodes := Function.update added.nodes k { added.nodes k with enabled := false } }
  have hregister : sysStep P s (.other 1 (.register silentChain 0 world)) =
      some { s with pm := added } := by
    have hcall : stepPmRegister P s.pm silentChain 0 world =
        ⟨added, 0, some k, [], none⟩ := by
      rw [stepPmRegister, hcounter, if_neg hk.ne, if_neg hk.not_gt]
      rfl
    simp [sysStep, h.fault, h.free, KMutex.lock, workQueueTid, ApiCall.heapOk, apiCall, hcall,
      Sys.afterCall]
  have hdisable : sysStep P { s with pm := added } (.other 1 (.disable k)) =
      some { s with pm := disabled } := by
    have hcall : stepPmDisableNode P added k = Outcome.ret disabled 0 := by
      have hadded : added.handleCounter = k + 1 := congrArg (· + 1) hcounter
      rw [stepPmDisableNode, stepPmSetEnabled, if_neg (by omega), if_neg hk.not_ge]
    simp [sysStep, h.fault, ApiCall.locks, workQueueTid, ApiCall.heapOk, apiCall, hcall,
      Outcome.ret, Sys.afterCall]
  refine ⟨_, (run_cons_eq_some _).mpr ⟨_, hregister,
    (run_cons_eq_some _).mpr ⟨_, hdisable, rfl⟩⟩, h.fault, h.free, h.idle, ?_, fun i hi => ?_⟩
  · refine ⟨_, l', hrep'.of_same rfl rfl rfl fun i => ?_, by simp [hlength]⟩
    by_cases hik : i = k
    · subst hik
      simp [disabled, added]
    · simp [disabled, hik, added]
  · by_cases hik : i = k
    · subst hik
      simp [disabled]
    · have hother : added.nodes i = s.pm.nodes i := by
        simp [added, PmState.addRecord, PmState.fillRecord, hcounter, hik]
      simpa [disabled, hik, hother] using h.disabled i (by omega)

/-- As many of them as there is room for. -/
theorem exists_allDisabled (P : Platform) (world : ℕ → Ω) :
    ∀ k ≤ P.nodeLimit, ∃ (ls : List (Label Ω)) (t : Sys Ω),
      run (sysStep P) (Sys.init P) ls = some t ∧ AllDisabled P t k := by
  intro k
  induction k with
  | zero =>
      intro _
      exact ⟨[], _, rfl, rfl, rfl, rfl, ⟨[], [], represents_init P, rfl⟩, fun i hi => by cases hi⟩
  | succ k ih =>
      intro hk
      obtain ⟨ls, s, hrun, hs⟩ := ih (Nat.le_of_succ_le hk)
      obtain ⟨t, hrun', ht⟩ := hs.succ hk world
      exact ⟨_, t, (run_append_eq_some _).mpr ⟨s, hrun, hrun'⟩, ht⟩

/-- **Disabled records are passed over under the lock**, one step each. -/
theorem held_through (inp : Inputs Ω) {rest : List ℕ} :
    ∀ {s : Sys Ω} {p : Proc Ω} {next : Option ℕ}, s.fault = none →
      s.regAccess = .held workQueueTid 0 → s.proc = some (p.goOn s.pm.snode next) →
      Path s.pm.snode next rest → (∀ i ∈ rest, (s.pm.nodes i).enabled = false) →
        (∃ t, run (sysStep P) s (List.replicate rest.length (.proc inp)) = some t) ∧
          Always (sysStep P) (fun s => s.regAccess ≠ .free) s
            (List.replicate rest.length (.proc inp)) := by
  -- on the records that are left
  induction rest with
  | nil =>
      intro s p next _ hheld _ _ _
      exact ⟨⟨s, rfl⟩, by simp [Always, hheld]⟩
  | cons i rest ih =>
      intro s p next hfault hheld hproc hpath hdisabled
      obtain ⟨rfl, hpath⟩ := hpath
      have hstep : sysStep P s (.proc inp) = some
          { s with
            log := s.log ++ [.visit i false]
            proc := some ((p.goOn s.pm.snode (some i)).goOn s.pm.snode (s.pm.snode i)) } := by
        simp [sysStep, hfault, hproc, procStep, Proc.goOn, visitStep,
          hdisabled i (List.mem_cons_self ..)]
      obtain ⟨⟨t, hrun⟩, halways⟩ := ih (s := { s with
          log := s.log ++ [.visit i false]
          proc := some ((p.goOn s.pm.snode (some i)).goOn s.pm.snode (s.pm.snode i)) })
        hfault hheld rfl hpath fun j hj => hdisabled j (List.mem_cons_of_mem i hj)
      refine ⟨⟨t, (run_cons_eq_some _).mpr ⟨_, hstep, hrun⟩⟩, by simp [hheld], fun s' hs' => ?_⟩
      obtain rfl := Option.some.inj (hstep.symm.trans hs')
      exact halways

/-- **The bound is reached**: as many chains as there is room for are disabled, and a dispatch has
the lock.  It passes over all of them without giving it back. -/
theorem exists_held_throughout [Inhabited Ω] (P : Platform) :
    ∃ (before ls : List (Label Ω)) (s t : Sys Ω), run (sysStep P) (Sys.init P) before = some s ∧
      run (sysStep P) s ls = some t ∧
      Always (sysStep P) (fun s => s.regAccess ≠ .free) s ls ∧
        ls.countP Label.isProc = P.nodeLimit + 1 := by
  obtain ⟨ls, s, hrun, hs⟩ := exists_allDisabled P (fun _ => (default : Ω)) P.nodeLimit le_rfl
  obtain ⟨regs, l, hrep, hlength⟩ := hs.registry
  let inp : Inputs Ω := ⟨default, default, 0, 0#32⟩
  let p : Proc Ω := Proc.start 0 ⟨⟨0#32, 0#32, 0#32⟩, []⟩ false
  let atHead : Proc Ω := { p with pc := .head }
  let s₁ : Sys Ω := { s with proc := some p }
  let s₂ : Sys Ω := { s with regAccess := .held workQueueTid 0, proc := some atHead }
  let s₃ : Sys Ω := { s₂ with proc := some (atHead.goOn s.pm.snode s.pm.pmNodeSlist.head) }
  have hbegin : sysStep P s (.process 0 ⟨⟨0#32, 0#32, 0#32⟩, []⟩ false) = some s₁ := by
    simp [sysStep, hs.fault, hs.idle, s₁, p]
  have hlock : sysStep P s₁ (.proc inp) = some s₂ := by
    simp [sysStep, s₁, s₂, atHead, p, hs.fault, procStep, Proc.start, hs.free, KMutex.lock]
  have hhead : sysStep P s₂ (.proc inp) = some s₃ := by
    simp [sysStep, s₂, s₃, atHead, hs.fault, procStep]
  obtain ⟨⟨t, hrun'⟩, halways⟩ := held_through (P := P) inp (s := s₃) hs.fault rfl rfl
    hrep.holds.path fun i hi => hs.disabled i (hlength ▸ (hrep.mem_iff i).mp hi)
  refine ⟨ls ++ [.process 0 ⟨⟨0#32, 0#32, 0#32⟩, []⟩ false, .proc inp],
    .proc inp :: List.replicate l.length (.proc inp), s₂, t,
    (run_append_eq_some _).mpr ⟨s, hrun, (run_cons_eq_some _).mpr ⟨s₁, hbegin,
      (run_cons_eq_some _).mpr ⟨s₂, hlock, rfl⟩⟩⟩,
    (run_cons_eq_some _).mpr ⟨s₃, hhead, hrun'⟩, ⟨by simp [s₂], fun s' hs' => ?_⟩, ?_⟩
  · obtain rfl := Option.some.inj (hhead.symm.trans hs')
    exact halways
  · have hown : (Label.proc inp).isProc = true := rfl
    rw [List.countP_cons_of_pos hown, List.countP_replicate, if_pos hown, hrep.length_listed,
      hlength]

end Reached

/-! ### The bound -/

/-- The dispatch is behind the loop: what is left is `step_sp_free`, if the measurement is to be
freed, the release of the lock and the return. -/
def Sys.BehindLoop (s : Sys Ω) : Prop := ∃ p, s.proc = some p ∧ p.pc = .tail

/-- Under the lock, before the end of the loop, a step of the work-queue thread comes nearer to
it. -/
theorem lockLeft_step {P : Platform} {s : Sys Ω} (hinv : InArray P s ∧ ReturnInvariant P s)
    (hgoal : ¬(s.regAccess = .free ∨ s.fault ≠ none ∨ s.BehindLoop)) (inp : Inputs Ω) :
    ∃ t, sysStep P s (.proc inp) = some t ∧ (InArray P t ∧ ReturnInvariant P t) ∧
      ((t.regAccess = .free ∨ t.fault ≠ none ∨ t.BehindLoop) ∨
        t.lockLeft - 2 < s.lockLeft - 2) := by
  obtain ⟨hheld, hfault, -⟩ := (not_or.trans (and_congr_right fun _ => not_or)).mp hgoal
  have hlock := hinv.2.sys.lock
  cases hproc : s.proc with
  | none =>
      rw [LockDiscipline, hproc] at hlock
      exact absurd hlock hheld
  | some p =>
      obtain ⟨t, ht⟩ : ∃ t, procStep P s p inp = some t := procStep_enabled hlock hproc
      have hstep : sysStep P s (.proc inp) = some t := by
        simpa [sysStep, not_not.mp hfault, hproc] using ht
      have hinv' : InArray P t ∧ ReturnInvariant P t :=
        ⟨sysStep_inArray hinv.2.sys hinv.1 hstep, sysStep_returnInvariant hinv.2 hstep⟩
      refine ⟨t, hstep, hinv', ?_⟩
      by_cases hend : t.regAccess = .free ∨ t.fault ≠ none ∨ t.BehindLoop
      · exact Or.inl hend
      · obtain ⟨hheld', hfault', hbehind⟩ :=
          (not_or.trans (and_congr_right fun _ => not_or)).mp hend
        have hlt := lockLeft_lt hinv.1 hinv.2 hheld hstep hheld'
        have htwo := two_le_lockLeft hinv'.2 hheld' (not_not.mp hfault') hbehind
        exact Or.inr (by omega)

/-- **How long the registry is locked.**  In every interleaving, as long as the lock is not given
back, the work-queue thread takes at most one step for each record there is room for, and one
more; left alone it gives the lock back, leaves defined behaviour or is behind the loop within as
many steps.  The bound is reached, whatever the platform. -/
theorem lock_latency [Inhabited Ω] (P : Platform) :
    (∀ (before : List (Label Ω)) s, run (sysStep P) (Sys.init P) before = some s →
      (∀ ls t, run (sysStep P) s ls = some t →
        Always (sysStep P) (fun s => s.regAccess ≠ .free) s ls →
          ls.countP Label.isProc ≤ P.nodeLimit + 1) ∧
        ∀ inputs : ℕ → Inputs Ω, ∃ n ≤ P.nodeLimit + 1, ∃ t,
          run (sysStep P) s ((List.range n).map fun i => .proc (inputs i)) = some t ∧
            (t.regAccess = .free ∨ t.fault ≠ none ∨ t.BehindLoop)) ∧
      ∃ (before ls : List (Label Ω)) (s t : Sys Ω), run (sysStep P) (Sys.init P) before = some s ∧
        run (sysStep P) s ls = some t ∧
        Always (sysStep P) (fun s => s.regAccess ≠ .free) s ls ∧
          ls.countP Label.isProc = P.nodeLimit + 1 := by
  refine ⟨fun before s hrun => ?_, exists_held_throughout P⟩
  have hinv := run_inArray hrun
  have hle := lockLeft_le hinv.1 hinv.2
  refine ⟨fun ls t ht hheld => ?_, fun inputs => ?_⟩
  · have hleft := lockLeft_run hinv hheld ht
    have hpos : 0 < t.lockLeft := by
      have hend := run_returnInvariant hinv.2 ht
      exact lockLeft_pos hend.sys.lock (hheld.last ht)
    omega
  · have hstep : ∀ (s : Sys Ω) (l : Label Ω), InArray P s ∧ ReturnInvariant P s →
        ¬(s.regAccess = .free ∨ s.fault ≠ none ∨ s.BehindLoop) → l.isProc →
        ∃ t, sysStep P s l = some t ∧ (InArray P t ∧ ReturnInvariant P t) ∧
          ((t.regAccess = .free ∨ t.fault ≠ none ∨ t.BehindLoop) ∨
            t.lockLeft - 2 < s.lockLeft - 2) := by
      intro s l hinv hgoal hl
      cases l with
      | process | other => cases hl
      | proc inp => exact lockLeft_step hinv hgoal inp
    obtain ⟨n, hn, t, ht, hgoal⟩ := exists_run_of_variant_le (fun s : Sys Ω => s.lockLeft - 2) hstep
      hinv (fun i => .proc (inputs i)) fun _ => rfl
    exact ⟨n, by have := P.nodeLimit_range.1; omega, t, ht, hgoal⟩

/-- A dispatch of the test suite has locked the registry. -/
theorem lock_latency_locked :
    ∃ s, run (sysStep Platform.tests) (Sys.init Platform.tests)
        [.process 0 ⟨⟨0#32, 0#32, 0#32⟩, []⟩ false, .proc ⟨(), (), 0, 0#32⟩] = some s ∧
      s.regAccess ≠ .free ∧
      ∀ ls t, run (sysStep Platform.tests) s ls = some t →
        Always (sysStep Platform.tests) (fun s => s.regAccess ≠ .free) s ls →
          ls.countP Label.isProc ≤ 5 := by
  obtain ⟨s, hrun, hheld⟩ : ∃ s, run (sysStep Platform.tests) (Sys.init Platform.tests)
      [.process 0 ⟨⟨0#32, 0#32, 0#32⟩, []⟩ false, .proc ⟨(), (), 0, 0#32⟩] = some s ∧
        s.regAccess ≠ .free := ⟨_, rfl, by decide⟩
  exact ⟨s, hrun, hheld, ((lock_latency Platform.tests).1 _ s hrun).1⟩

end StepPipeline
