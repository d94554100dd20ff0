import StepPipeline.Dispatch
import Mathlib.Data.Prod.Lex

/-!
# Dispatches return

Whatever other threads have done to the registry while a `step_pm_process` was in
flight, clears included, the work-queue thread comes to an end as soon as it is left
alone, for all results of the callbacks.

* `ReturnInvariant` — **what it takes**: the links of the records and those of the
  callback blocks come to an end from every cell, also from a cell that is in no list
  any more, and nobody else holds the mutex between steps;
* `Proc.rank` — what is left to do, in the order of the loops: records, the stage
  within one record, nodes and subscribers within that stage;
* `process_returns` — every step of the work-queue thread is enabled and lowers the
  rank, so it returns or leaves defined behaviour.

## Why the invariant is about all cells

A dispatch that is executing a chain keeps a pointer to the record it will visit next and, in the
subscriber loop, one to the next block.  When the registry is cleared meanwhile these pointers
lead into records and blocks that are in no list any more, or in another one by now.  That a list
is well formed says nothing about them.  `Ends` therefore asks of the links that they come to an
end from every cell there is; it does not mention lists, and linking, cutting and appending keep
it for reasons of their own.

## A rank in three places

The loops are nested three deep, and the amount left in an inner one has no bound in terms of the
outer one, as chains and lists of subscribers may be as long as one likes.  A lexicographic rank
says just that: going on in an inner loop lowers a later place, leaving it lowers an earlier one.
No number bounds the steps of a dispatch in advance; `LockLatency` has the bounds that exist.
-/

namespace StepPipeline

open IntrusiveList LabelledRun

variable {Ω : Type}

/-! ### Links that come to an end -/

/-- **What it takes for a dispatch to return.** Both kinds of links come to an end from every
cell, and the mutex is free between steps or with the work-queue thread; the representation of the
registry and of the subscribers is there because calls keep the former only together with these. -/
structure ReturnInvariant (P : Platform) (s : Sys Ω) : Prop where
  sys : SysInvariant P s
  subscribers : ∃ subsOf, SubsRepresented s.pm subsOf
  snode : Ends s.pm.snode
  subSnode : Ends s.pm.subSnode

section Links

variable {P : Platform} {s s' : Sys Ω} {pm : PmState Ω} {regs : List (StepNodeChain Ω × ℕ)}
  {l : List ℕ} {subsOf : ℕ → List ℕ}

theorem ends_none : Ends (fun _ => none : Links ℕ) := by
  intro start
  cases start with
  | none => exact ⟨[], rfl⟩
  | some x => exact ⟨[x], rfl, rfl⟩

theorem returnInvariant_init (P : Platform) : ReturnInvariant P (Sys.init P : Sys Ω) :=
  ⟨sysInvariant_init P, ⟨_, subsRepresented_init P⟩, ends_none, ends_none⟩

/-- The links of the records, after a call: an insertion, or a clear that cuts them. -/
theorem apiCall_snode_ends (hrep : Represents P pm regs l) (h : Ends pm.snode)
    (c : ApiCall Ω) : Ends (apiCall P pm c).pm.snode := by
  have hmove := apiCall_move hrep.counter_le c
  generalize (apiCall P pm c).pm = pm' at hmove
  cases hmove with
  | add node pri _ _ =>
      refine (hrep.linkRecord_places node pri).ends (h.of_cut fun x => ?_)
      by_cases hx : x = pm.handleCounter
      · subst hx
        exact Or.inr (Function.update_self _ _ _)
      · exact Or.inl (Function.update_of_ne hx _ _)
  | clear =>
      refine h.of_cut fun x => ?_
      show (if x < P.nodeLimit then none else pm.snode x) = pm.snode x ∨
        (if x < P.nodeLimit then none else pm.snode x) = none
      split
      · exact Or.inr rfl
      · exact Or.inl rfl
  | _ => exact h

/-- The links of the callback blocks, after a call. -/
theorem apiCall_subSnode_ends (hle : pm.handleCounter ≤ P.nodeLimit)
    (hsubs : SubsRepresented pm subsOf) {c : ApiCall Ω} (hheap : c.heapOk pm = true)
    (h : Ends pm.subSnode) : Ends (apiCall P pm c).pm.subSnode := by
  have hmove := apiCall_move hle c
  generalize (apiCall P pm c).pm = pm' at hmove
  cases hmove with
  | subscribe handle _ _ nc =>
      have hfresh : nc ∉ pm.subAllocated := by simpa [ApiCall.heapOk] using hheap
      have hnew : nc ∉ subsOf handle := fun hmem => hfresh (hsubs.allocated handle nc hmem)
      exact (P.slist.append_places (hsubs.holds handle) hnew).ends h
  | _ => exact h

/-- **Every step of the system keeps it**, whoever takes the step. -/
theorem sysStep_returnInvariant {label : Label Ω} (h : ReturnInvariant P s)
    (hstep : sysStep P s label = some s') : ReturnInvariant P s' := by
  obtain ⟨subsOf, hsubs⟩ := h.subscribers
  obtain ⟨regs, l, hrep⟩ := h.sys.registry
  have hsys := sysStep_invariant h.sys hstep
  obtain ⟨-, hmove⟩ := sysStep_move hstep
  cases hmove with
  | process _ _ _ _ => exact ⟨hsys, ⟨subsOf, hsubs⟩, h.snode, h.subSnode⟩
  | proc _ hmove =>
      have hsame := hmove.sameRegistry
      refine ⟨hsys, ⟨subsOf, hsubs.of_sameRegistry hsame⟩, ?_, ?_⟩
      · exact hsame.snode.symm ▸ h.snode
      · exact hsame.subSnode.symm ▸ h.subSnode
  | other t c _ _ hheap =>
      exact ⟨hsys, apiCall_subsRepresented hsubs hrep.counter_le hheap,
        apiCall_snode_ends hrep h.snode c,
        apiCall_subSnode_ends hrep.counter_le hsubs hheap h.subSnode⟩

/-- …and so does every run. -/
theorem run_returnInvariant {labels : List (Label Ω)} (h : ReturnInvariant P s)
    (hrun : run (sysStep P) s labels = some s') : ReturnInvariant P s' :=
  run_preserves (fun _ _ _ hI hstep => sysStep_returnInvariant hI hstep) h hrun

theorem ReachableSys.returnInvariant (h : ReachableSys P s) : ReturnInvariant P s := by
  obtain ⟨labels, -, hrun⟩ := h
  exact run_returnInvariant (returnInvariant_init P) hrun

end Links

/-! ### What is left to do -/

/-- What is left of a node after the handler of a phase. -/
def Phase.toCome : Phase → ℕ
  | .start => 2
  | .exec => 1
  | .stop => 0

/-- **What is left to do**: how many records there are to go, then the stage within the record at
hand, then what is left of that stage.  A node takes six steps at most, an error handler behind
each of its three handlers, and a block of the subscriber loop takes two. -/
noncomputable def Proc.rank (pm : PmState Ω) (p : Proc Ω) : ℕ ×ₗ ℕ ×ₗ ℕ :=
  match p.pc with
  | .lock => toLex (toGo pm.snode pm.pmNodeSlist.head + 2, toLex (1, 0))
  | .head => toLex (toGo pm.snode pm.pmNodeSlist.head + 2, toLex (0, 0))
  | .visit => toLex (toGo pm.snode p.tmp + 1, toLex (3, 0))
  | .call phase _ _ next =>
      toLex (toGo pm.snode p.tmp + 1, toLex (2, 6 * next.length + 2 * phase.toCome + 2))
  | .error phase _ _ next _ =>
      toLex (toGo pm.snode p.tmp + 1, toLex (2, 6 * next.length + 2 * phase.toCome + 1))
  | .subsHead => toLex (toGo pm.snode p.tmp + 1, toLex (2, 0))
  | .subs _ subsTmp =>
      toLex (toGo pm.snode p.tmp + 1, toLex (1, 2 * toGo pm.subSnode subsTmp + 1))
  | .subsNext subsTmp =>
      toLex (toGo pm.snode p.tmp + 1, toLex (1, 2 * toGo pm.subSnode subsTmp))
  | .relock => toLex (toGo pm.snode p.tmp + 1, toLex (0, 0))
  | .tail => toLex (0, toLex (0, 0))

/-- …of the system. -/
noncomputable def Sys.rank (s : Sys Ω) : ℕ ×ₗ ℕ ×ₗ ℕ :=
  match s.proc with
  | none => toLex (0, toLex (0, 0))
  | some p => p.rank s.pm

section Rank

variable {P : Platform} {s s' : Sys Ω} {pm : PmState Ω} {p : Proc Ω} {inp : Inputs Ω}

theorem lex_lt_of_fst {a a' : ℕ} {x x' : ℕ ×ₗ ℕ} (h : a' < a) :
    toLex (a', x') < toLex (a, x) :=
  Prod.Lex.toLex_lt_toLex.mpr (Or.inl h)

theorem lex_lt_of_snd {a b b' c c' : ℕ} (h : b' < b) :
    toLex (a, toLex (b', c')) < toLex (a, toLex (b, c)) :=
  Prod.Lex.toLex_lt_toLex.mpr (Or.inr ⟨rfl, Prod.Lex.toLex_lt_toLex.mpr (Or.inl h)⟩)

theorem lex_lt_of_trd {a b c c' : ℕ} (h : c' < c) :
    toLex (a, toLex (b, c')) < toLex (a, toLex (b, c)) :=
  Prod.Lex.toLex_lt_toLex.mpr
    (Or.inr ⟨rfl, Prod.Lex.toLex_lt_toLex.mpr (Or.inr ⟨rfl, h⟩)⟩)

/-- Going on to the next record lowers the rank of everything that has this record
still to go. -/
theorem rank_goOn_lt (hends : Ends pm.snode) (p : Proc Ω) (next : Option ℕ) {a : ℕ}
    (ha : toGo pm.snode next < a) (x : ℕ ×ₗ ℕ) :
    (p.goOn pm.snode next).rank pm < toLex (a, x) := by
  cases next with
  | none => exact lex_lt_of_fst (by omega)
  | some q =>
      rw [hends.toGo_some q] at ha
      exact lex_lt_of_fst ha

/-- Going on to the next subscriber, or to the end of the chain. -/
theorem rank_goOnSubs_lt (hends : Ends pm.subSnode) (p : Proc Ω) (next : Option ℕ)
    {b c : ℕ} (hlt : 1 < b ∨ b = 1 ∧ 2 * toGo pm.subSnode next ≤ c) :
    (p.goOnSubs pm.subSnode next).rank pm <
      toLex (toGo pm.snode p.tmp + 1, toLex (b, c)) := by
  cases next with
  | none => exact lex_lt_of_snd (by omega)
  | some e =>
      rw [hends.toGo_some e] at hlt
      rcases hlt with hb | ⟨rfl, hc⟩
      · exact lex_lt_of_snd hb
      · exact lex_lt_of_trd (by omega)

/-- What follows a handler has a lower rank than the handler and than its error. -/
theorem rank_afterPhase_lt (q : Proc Ω) {phase : Phase} {inst : ℕ} {n : StepNode Ω}
    {next : List (StepNode Ω)} (hpc : q.pc = afterPhase phase inst n next) {c : ℕ}
    (hc : 6 * next.length + 2 * phase.toCome < c) :
    q.rank pm < toLex (toGo pm.snode q.tmp + 1, toLex (2, c)) := by
  unfold Proc.rank
  rw [hpc]
  cases phase with
  | start => exact lex_lt_of_trd (by simp only [Phase.toCome] at hc ⊢; omega)
  | exec => exact lex_lt_of_trd (by simp only [Phase.toCome] at hc ⊢; omega)
  | stop =>
      cases next with
      | nil => exact lex_lt_of_trd (by omega)
      | cons m ms =>
          rw [List.length_cons] at hc
          exact lex_lt_of_trd (by simp only [Phase.toCome] at hc ⊢; omega)

/-- **A step inside a chain lowers the rank**, or leaves defined behaviour. -/
theorem ChainMove.rank_lt (hends : Ends s.pm.subSnode) (hmove : ChainMove s p inp s') :
    s'.fault ≠ none ∨ s'.rank < p.rank s.pm := by
  have hrank : ∀ {phase : Phase} {inst : ℕ} {n : StepNode Ω} {next : List (StepNode Ω)},
      p.pc = .call phase inst n next → p.rank s.pm =
        toLex (toGo s.pm.snode p.tmp + 1, toLex (2, 6 * next.length + 2 * phase.toCome + 2)) := by
    intro phase inst n next hpc
    rw [Proc.rank, hpc]
  cases hmove with
  | nullError _ _ => exact Or.inl (by simp [Sys.crash])
  | skip hpc _ =>
      rw [hrank hpc]
      exact Or.inr (rank_afterPhase_lt _ rfl (by omega))
  | @call phase inst n next hpc f _ rc mes _ =>
      rw [hrank hpc]
      refine Or.inr ?_
      by_cases hrc : rc = 0
      · subst hrc
        exact rank_afterPhase_lt _ rfl (by omega)
      · simp only [if_neg hrc]
        exact lex_lt_of_trd (by omega)
  | error hpc _ _ _ =>
      refine Or.inr ?_
      rw [Proc.rank, hpc]
      exact rank_afterPhase_lt _ rfl (by omega)
  | fetch hpc =>
      refine Or.inr ?_
      rw [Proc.rank, hpc]
      exact rank_goOnSubs_lt hends _ _ (Or.inl (by omega))
  | skipSub hpc _ =>
      refine Or.inr ?_
      rw [Proc.rank, hpc]
      exact lex_lt_of_trd (Nat.lt_succ_self _)
  | callSub hpc _ _ _ =>
      refine Or.inr ?_
      rw [Proc.rank, hpc]
      exact lex_lt_of_trd (Nat.lt_succ_self _)
  | nextSub hpc =>
      refine Or.inr ?_
      rw [Proc.rank, hpc]
      exact rank_goOnSubs_lt hends _ _ (Or.inr ⟨rfl, le_rfl⟩)

/-- **Every step of the work-queue thread lowers the rank**, returns, or leaves defined behaviour.
Only its own steps are spoken of: calls of other threads may raise the rank, as they may link in
records that lie ahead. -/
theorem procStep_rank_lt (h : ReturnInvariant P s) (hproc : s.proc = some p)
    (hstep : procStep P s p inp = some s') :
    s'.proc = none ∨ s'.fault ≠ none ∨ s'.rank < s.rank := by
  have hrank : s.rank = p.rank s.pm := by rw [Sys.rank, hproc]
  rw [hrank]
  by_cases hin : p.pc.InChain
  · exact Or.inr ((procStep_chainMove hin hstep).rank_lt h.subSnode)
  · have hmove := procStep_move hstep
    cases hmove with
    | chain hpc _ _ _ _ _ => exact absurd hpc hin
    | chainDone hpc _ _ _ => exact absurd hpc hin
    | crash u => exact Or.inr (Or.inl (by simp [Sys.crash]))
    | tail _ => exact Or.inl rfl
    | lock hpc _ _ =>
        refine Or.inr (Or.inr ?_)
        rw [Proc.rank, hpc]
        exact lex_lt_of_snd (by omega)
    | head hpc =>
        refine Or.inr (Or.inr ?_)
        rw [Proc.rank, hpc]
        exact rank_goOn_lt h.snode _ _ (by omega) _
    | skip hpc _ =>
        refine Or.inr (Or.inr ?_)
        rw [Proc.rank, hpc]
        exact rank_goOn_lt h.snode _ _ (by omega) _
    | noMatch hpc _ _ _ _ _ =>
        refine Or.inr (Or.inr ?_)
        rw [Proc.rank, hpc]
        exact lex_lt_of_snd (by omega)
    | enter hpc _ _ _ _ _ _ _ =>
        refine Or.inr (Or.inr ?_)
        rw [Proc.rank, hpc]
        exact lex_lt_of_snd (by omega)
    | relock hpc m _ =>
        refine Or.inr (Or.inr ?_)
        -- the instrumentation writes the record before the loop goes on
        let pm := s.pm.account P p.pnode p.instr inp.cycles
        have hsnode : pm.snode = s.pm.snode :=
          (s.pm.account_sameRegistry P p.pnode p.instr inp.cycles).snode
        have hlt : (p.goOn pm.snode p.tmp).rank pm <
            toLex (toGo s.pm.snode p.tmp + 1, toLex (0, 0)) := by
          refine rank_goOn_lt (hsnode.symm ▸ h.snode) p p.tmp ?_ _
          rw [hsnode]
          omega
        rw [hsnode] at hlt
        rw [Proc.rank, hpc]
        exact hlt

/-- **The work-queue thread is never stuck**: between steps nobody else holds the mutex it waits
for.  Calls of other threads are single steps, so none of them is seen inside its critical
section. -/
theorem procStep_enabled (hlock : LockDiscipline s) (hproc : s.proc = some p) :
    ∃ s', procStep P s p inp = some s' := by
  have hfree : ¬p.pc.Locked → s.regAccess.lock workQueueTid = some (.held workQueueTid 0) := by
    intro hpc
    rw [hlock.unlocked hproc hpc]
    rfl
  unfold procStep
  cases hpc : p.pc with
  | lock =>
      rw [hfree (hpc ▸ id)]
      exact ⟨_, rfl⟩
  | relock =>
      rw [hfree (hpc ▸ id)]
      exact ⟨_, rfl⟩
  | call phase inst n next =>
      dsimp only
      cases n.callbacks.handler phase <;> exact ⟨_, rfl⟩
  | error phase inst n next code =>
      dsimp only
      cases n.callbacks.errorHandler <;> exact ⟨_, rfl⟩
  | subs entry subsTmp =>
      dsimp only
      cases (s.pm.subs entry).cb <;> exact ⟨_, rfl⟩
  | _ => exact ⟨_, rfl⟩

/-- **A dispatch returns**: left alone, the work-queue thread returns or leaves defined behaviour,
whatever the callbacks answer and the clocks say.  The inputs are one infinite sequence given in
advance, which is no restriction, as the thread takes only finitely many of them. -/
theorem process_returns (h : ReturnInvariant P s) (inputs : ℕ → Inputs Ω) :
    ∃ n t, run (sysStep P) s ((List.range n).map fun i => Label.proc (inputs i)) = some t ∧
      (t.proc = none ∨ t.fault ≠ none) := by
  have hone : ∀ (s : Sys Ω) (label : Label Ω), ReturnInvariant P s →
      ¬(s.proc = none ∨ s.fault ≠ none) → (∃ inp, label = Label.proc inp) →
      ∃ s', sysStep P s label = some s' ∧ ReturnInvariant P s' ∧
        ((s'.proc = none ∨ s'.fault ≠ none) ∨ s'.rank < s.rank) := by
    rintro s label h hgoal ⟨inp, rfl⟩
    push Not at hgoal
    obtain ⟨hproc, hfault⟩ := hgoal
    obtain ⟨p, hp⟩ := Option.ne_none_iff_exists'.mp hproc
    obtain ⟨s', hs'⟩ : ∃ s', procStep P s p inp = some s' := procStep_enabled h.sys.lock hp
    have hstep : sysStep P s (.proc inp) = some s' := by simpa [sysStep, hfault, hp] using hs'
    refine ⟨s', hstep, sysStep_returnInvariant h hstep, ?_⟩
    rcases procStep_rank_lt h hp hs' with hnone | hcrash | hlt
    · exact Or.inl (Or.inl hnone)
    · exact Or.inl (Or.inr hcrash)
    · exact Or.inr hlt
  exact exists_run_of_variant Sys.rank hone s (fun i => Label.proc (inputs i))
    (fun i => ⟨inputs i, rfl⟩) h

end Rank

end StepPipeline
