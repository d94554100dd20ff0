import Mathlib.Data.List.Count
import StepPipeline.CacheMap
import StepPipeline.CacheCoherence
import StepPipeline.CallbackIdentity

/-!
# What the statistics of the cache tell

`cache.c` counts what is done to the table.  Over every interleaving of dispatches and calls:

* `CacheEvent` and `cacheEvents` — what happens to the table in a step of the system: it is
  cleared, a verdict is found in it, or one is not found and is added, over another record if
  the table is full;
* `missesSince` — the verdicts added since the last clear;
* `Tallied` — **what the counters and the table say of the events**: four of the counters count,
  `removals` never does, and the table is full from the insertion on that fills it;
* `cache_statistics` — that in every run.

`removals` is documented as the number of records removed because of an overflow, so it is right
exactly as long as no more verdicts than the table has records are added between two clears.

## A history to compare with

What a counter is meant to count is said in terms of what happens to the table, and that is read
off the state before each step and the label, not off the counters.  A counter has 32 bits, so
what is shown of it is shown modulo 2^32.

The counter `removals` is the exception in the code: its comment says what it counts, and no
statement increments it.  `Tallied` states both, that it stays 0 and when a record is in fact
removed.
-/

namespace StepPipeline

open LabelledRun

variable {Ω : Type}

/-! ### What happens to the table -/

/-- What happens to the table. -/
inductive CacheEvent where
  | clear
  | hit
  /-- A verdict is evaluated and added; `full` says whether a record is removed for it. -/
  | miss (full : Bool)
  deriving DecidableEq, Repr

/-- There is no empty slot. -/
def StepCache.full (c : StepCache) : Bool := c.recs.all fun r => r.lastUsed ≠ 0

/-- A lookup. -/
def StepCache.event (c : StepCache) (filter : BitVec 32) (handle : ℕ) : CacheEvent :=
  if (c.lookup filter handle).isSome then .hit else .miss c.full

/-- What happens to the table in a step. -/
def cacheEvents (s : Sys Ω) : Label Ω → List CacheEvent
  | .other _ .clear => [.clear]
  | .other _ _ | .process _ _ _ => []
  | .proc _ =>
      match s.proc with
      | none => []
      | some p =>
          match p.pc with
          | .visit =>
              if (s.pm.nodes p.pnode).enabled then
                [s.pm.cache.event p.mes.header.filterBits (s.pm.nodes p.pnode).handle]
              else []
          | _ => []

/-- The verdicts added since the last clear.  As the dispatcher adds only what it has missed,
these are different keys, until the table is full and keys are dropped. -/
def missesSince : List CacheEvent → ℕ :=
  List.foldl (fun n e => match e with
    | .clear => 0
    | .hit => n
    | .miss _ => n + 1) 0

@[simp] theorem missesSince_clear (events : List CacheEvent) :
    missesSince (events ++ [.clear]) = 0 := by
  simp [missesSince]

@[simp] theorem missesSince_hit (events : List CacheEvent) :
    missesSince (events ++ [.hit]) = missesSince events := by
  simp [missesSince]

@[simp] theorem missesSince_miss (events : List CacheEvent) (full : Bool) :
    missesSince (events ++ [.miss full]) = missesSince events + 1 := by
  simp [missesSince]

def CacheEvent.isMiss : CacheEvent → Bool
  | .miss _ => true
  | .clear | .hit => false

/-- **What the counters and the table say** of what has happened to the table. -/
structure Tallied (P : Platform) (c : StepCache) (events : List CacheEvent) : Prop where
  clearCalls : c.stats.clearCalls = BitVec.ofNat 32 (events.count .clear)
  checkCalls : c.stats.checkCalls =
    BitVec.ofNat 32 (events.count .hit + events.countP CacheEvent.isMiss)
  addCalls : c.stats.addCalls = BitVec.ofNat 32 (events.countP CacheEvent.isMiss)
  hits : c.stats.hits = BitVec.ofNat 32 (events.count .hit)
  /-- It is never counted. -/
  removals : c.stats.removals = 0
  length : c.recs.length = P.cacheDepth
  /-- The table fills up, and stays full until it is cleared. -/
  live : (liveRecs c.recs).length = min P.cacheDepth (missesSince events)
  /-- A record is removed for each verdict added once it is full. -/
  removed : ∀ before after full, events = before ++ .miss full :: after →
    (full = true ↔ P.cacheDepth ≤ missesSince before)

section Tallied

variable {P : Platform} {c c' : StepCache} {events : List CacheEvent} {filter : BitVec 32}
  {handle : ℕ} {uptime : ℤ}

/-- Writing a record in use. -/
theorem length_liveRecs_set {recs : List StepCacheRec} {i : ℕ} (hi : i < recs.length)
    {new : StepCacheRec} (hnew : new.lastUsed ≠ 0) :
    (liveRecs (recs.set i new)).length =
      (liveRecs recs).length + if recs[i].lastUsed = 0 then 1 else 0 := by
  have hrecs : recs = recs.take i ++ recs[i] :: recs.drop (i + 1) := by simp
  have hset : recs.set i new = recs.take i ++ new :: recs.drop (i + 1) :=
    List.set_eq_take_append_cons_drop.trans (if_pos hi)
  rw [hset, (liveRecs_perm_of_live hnew).length_eq, List.length_cons]
  by_cases hempty : recs[i].lastUsed = 0
  · rw [if_pos hempty]
    conv_rhs => rw [hrecs, liveRecs_of_empty hempty]
  · rw [if_neg hempty]
    conv_rhs => rw [hrecs, (liveRecs_perm_of_live hempty).length_eq]
    rfl

/-- An insertion takes an empty slot if there is one. -/
theorem insertSlot_empty_iff {i : ℕ} (hslot : c.insertSlot = some i) (hi : i < c.recs.length) :
    c.recs[i].lastUsed = 0 ↔ c.full = false := by
  unfold StepCache.insertSlot at hslot
  split at hslot
  · rename_i hfind
    obtain rfl := Option.some.inj hslot
    obtain ⟨hi', hempty, -⟩ := List.findIdx?_eq_some_iff_getElem.mp hfind
    refine iff_of_true (by simpa using hempty) ?_
    rw [StepCache.full, List.all_eq_false]
    exact ⟨_, List.getElem_mem hi', by simpa using hempty⟩
  · rename_i hfind
    rw [List.findIdx?_eq_none_iff] at hfind
    refine iff_of_false (by simpa using hfind _ (List.getElem_mem hi)) ?_
    rw [Bool.not_eq_false, StepCache.full, List.all_eq_true]
    exact fun r hr => by simpa using hfind r hr

/-- A full table is one that holds as many records as it has slots. -/
theorem full_iff : c.full = true ↔ (liveRecs c.recs).length = c.recs.length := by
  rw [StepCache.full, liveRecs, List.length_filter_eq_length_iff, List.all_eq_true]

theorem tallied_init (P : Platform) : Tallied P (.init P) [] where
  clearCalls := rfl
  checkCalls := rfl
  addCalls := rfl
  hits := rfl
  removals := rfl
  length := List.length_replicate
  live := by
    have hempty : liveRecs (StepCache.init P).recs = [] :=
      liveRecs_of_zero fun r hr => (List.mem_replicate.mp hr).2
    simp [hempty, missesSince]
  removed before after full h := by simp at h

/-- One more event. -/
theorem Tallied.removed_concat (h : Tallied P c events) {e : CacheEvent}
    (he : ∀ full, e = .miss full → (full = true ↔ P.cacheDepth ≤ missesSince events)) :
    ∀ before after full, events ++ [e] = before ++ .miss full :: after →
      (full = true ↔ P.cacheDepth ≤ missesSince before) := by
  intro before after full heq
  rcases List.eq_nil_or_concat' after with rfl | ⟨after, last, rfl⟩
  · obtain ⟨rfl, hlast⟩ := List.append_inj' heq rfl
    exact he full (List.head_eq_of_cons_eq hlast)
  · rw [← List.cons_append, ← List.append_assoc] at heq
    obtain ⟨hevents, -⟩ := List.append_inj' heq rfl
    exact h.removed before after full hevents

theorem Tallied.clear (h : Tallied P c events) :
    Tallied P (stepCacheClear P c) (events ++ [.clear]) where
  clearCalls := by simp [stepCacheClear, h.clearCalls, List.count_append, BitVec.ofNat_add]
  checkCalls := by simp [stepCacheClear, h.checkCalls, CacheEvent.isMiss]
  addCalls := by simp [stepCacheClear, h.addCalls, CacheEvent.isMiss]
  hits := by simp [stepCacheClear, h.hits]
  removals := h.removals
  length := List.length_replicate
  live := by
    rw [missesSince_clear, stepCacheClear,
      liveRecs_of_zero fun r hr => (List.mem_replicate.mp hr).2]
    simp
  removed := h.removed_concat fun full he => by cases he

/-- What a lookup counts. -/
theorem stepCacheCheck_stats (c : StepCache) (filter : BitVec 32) (handle : ℕ) (uptime : ℤ) :
    (stepCacheCheck c filter handle uptime).2.2.stats =
      { c.stats with
        checkCalls := c.stats.checkCalls + 1
        hits := if (c.lookup filter handle).isSome then c.stats.hits + 1 else c.stats.hits } := by
  have hfind : (c.lookup filter handle).isSome =
      (c.recs.findIdx? (StepCacheRec.keyed filter handle)).isSome := by
    rw [StepCache.lookup, List.isSome_find?, List.findIdx?_isSome]
  rw [hfind, stepCacheCheck]
  cases c.recs.findIdx? (StepCacheRec.keyed filter handle) <;> rfl

theorem Tallied.hit (h : Tallied P c events) (hup : uptime ≠ 0) {found : StepCacheRec}
    (hfound : c.lookup filter handle = some found) :
    Tallied P (stepCacheCheck c filter handle uptime).2.2 (events ++ [.hit]) := by
  have hstats := stepCacheCheck_stats c filter handle uptime
  rw [hfound, Option.isSome_some, if_pos rfl] at hstats
  have hrecs : (liveRecs (stepCacheCheck c filter handle uptime).2.2.recs).length =
      (liveRecs c.recs).length := by
    rcases keyed_cases c.recs filter handle with ⟨before, r, after, hsplit, hkey, hbefore⟩ | hnone
    · have hlive : r.lastUsed ≠ 0 := (keyed_iff.mp hkey).1
      rw [(stepCacheCheck_split uptime hsplit hkey hbefore).2.2, hsplit,
        (liveRecs_perm_of_live hup).length_eq, (liveRecs_perm_of_live hlive).length_eq]
      rfl
    · have hkey := List.find?_some hfound
      rw [hnone found (List.mem_of_find?_eq_some hfound)] at hkey
      cases hkey
  refine ⟨?_, ?_, ?_, ?_, ?_, stepCacheCheck_length.trans h.length, ?_,
    h.removed_concat fun full he => by cases he⟩
  · simp [hstats, h.clearCalls]
  · simp [hstats, h.checkCalls, CacheEvent.isMiss, BitVec.ofNat_add,
      BitVec.add_assoc, BitVec.add_comm 1#32]
  · simp [hstats, h.addCalls, CacheEvent.isMiss]
  · simp [hstats, h.hits, BitVec.ofNat_add]
  · simp [hstats, h.removals]
  · rw [hrecs, h.live, missesSince_hit]

theorem Tallied.miss (h : Tallied P c events) (hup : uptime ≠ 0)
    (hmiss : c.lookup filter handle = none) {filter' : BitVec 32} {result : ℤ}
    {madeFor : StepMeasurement}
    (hadd : stepCacheAdd (stepCacheCheck c filter handle uptime).2.2 filter' handle result uptime
      madeFor = .ok c') :
    Tallied P c' (events ++ [.miss c.full]) := by
  have hstats := stepCacheCheck_stats c filter handle uptime
  rw [hmiss, Option.isSome_none, if_neg (by simp)] at hstats
  have hrecs := (@stepCacheCheck_miss c filter handle uptime hmiss).2
  rw [stepCacheAdd, insertSlot_congr hrecs, hrecs, hstats] at hadd
  cases hslot : c.insertSlot with
  | none => simp [hslot] at hadd
  | some i =>
      rw [hslot] at hadd
      obtain rfl := Except.ok.inj hadd
      have hi := insertSlot_lt hslot
      have hempty := insertSlot_empty_iff hslot hi
      -- the table is full from the insertion on that fills it
      have hfull : c.full = true ↔ P.cacheDepth ≤ missesSince events := by
        rw [full_iff, h.live, h.length]
        omega
      refine ⟨?_, ?_, ?_, ?_, ?_, (List.length_set ..).trans h.length, ?_,
        h.removed_concat fun full he => ?_⟩
      · simp [h.clearCalls]
      · simp [h.checkCalls, CacheEvent.isMiss, BitVec.ofNat_add, BitVec.add_assoc]
      · simp [h.addCalls, CacheEvent.isMiss, BitVec.ofNat_add]
      · simp [h.hits]
      · exact h.removals
      · rw [length_liveRecs_set hi hup, h.live, missesSince_miss]
        cases hf : c.full with
        | true =>
            have hge := hfull.mp hf
            rw [if_neg (by rw [hempty, hf]; simp)]
            omega
        | false =>
            have hlt : ¬P.cacheDepth ≤ missesSince events := fun hle => by
              rw [hfull.mpr hle] at hf
              cases hf
            rw [if_pos (hempty.mpr hf)]
            omega
      · obtain rfl : c.full = full := by cases he; rfl
        exact hfull

end Tallied

/-! ### Every run -/

section Run

variable {P : Platform} {s s' : Sys Ω} {events : List CacheEvent}

/-- `k_uptime_get` has left the first millisecond.  A verdict added before is not in use
afterwards, and the table would fill up later than the number of insertions says. -/
def ClockStarted : Label Ω → Prop
  | .proc inp => inp.uptime ≠ 0
  | .process _ _ _ | .other _ _ => True

/-- A verdict is looked up. -/
theorem Tallied.lookup (hon : P.filterCache = true) {c cache : StepCache}
    (h : Tallied P c events) {r : StepPmNodeRecord Ω} {mes : StepMeasurement} {mesAddr : ℕ}
    {rc : ℤ} {inp : Inputs Ω} (hup : inp.uptime ≠ 0) {v : Verdict}
    (hv : lookupVerdict P c r mes mesAddr rc inp = .ok (v, cache)) :
    Tallied P cache (events ++ [c.event mes.header.filterBits r.handle]) := by
  cases lookupVerdict_move hv with
  | hit _ found hfound =>
      rw [StepCache.event, hfound]
      exact h.hit hup hfound
  | miss _ hmiss v _ _ hadd =>
      rw [StepCache.event, hmiss]
      exact h.miss hup hmiss hadd
  | fresh hoff _ _ => simp [hon] at hoff

/-- Only `step_pm_clear` touches the cache. -/
theorem Tallied.call (hon : P.filterCache = true) (h : Tallied P s.pm.cache events) (tid : Tid)
    (c : ApiCall Ω) :
    Tallied P (apiCall P s.pm c).pm.cache (events ++ cacheEvents s (.other tid c)) := by
  have hset : ∀ on handle, (stepPmSetEnabled P s.pm on handle).pm.cache = s.pm.cache := by
    intro on handle
    unfold stepPmSetEnabled
    split
    · rfl
    · split <;> rfl
  cases c with
  | clear => simpa [apiCall, stepPmClear, Outcome.ret, hon, cacheEvents] using h.clear
  | register node pri world =>
      simp only [apiCall, stepPmRegister, cacheEvents, List.append_nil]
      split
      · exact h
      · split <;> exact h
  | enable handle => simpa [apiCall, stepPmEnableNode, hset, cacheEvents] using h
  | disable handle => simpa [apiCall, stepPmDisableNode, hset, cacheEvents] using h
  | subscribe handle cb userData block =>
      simp only [apiCall, stepPmSubscribeToNode, cacheEvents, List.append_nil]
      split
      · exact h
      · cases block with
        | none => exact h
        | some nc =>
            dsimp only
            split <;> exact h

/-- **The step lemma of the counters**, up to a step that leaves defined behaviour. -/
theorem sysStep_tallied (hon : P.filterCache = true) {l : Label Ω}
    (h : Tallied P s.pm.cache events) (hl : ClockStarted l) (hstep : sysStep P s l = some s')
    (hfault : s'.fault = none) : Tallied P s'.pm.cache (events ++ cacheEvents s l) := by
  obtain ⟨-, hmove⟩ := sysStep_move hstep
  cases hmove with
  | process _ _ _ _ => simpa [cacheEvents] using h
  | other tid c _ _ _ => exact h.call hon tid c
  | @proc inp p _ hproc hmove =>
      have hquiet : p.pc ≠ .visit → cacheEvents s (.proc inp) = [] := by
        intro hpc
        cases hp : p.pc with
        | visit => exact absurd hp hpc
        | _ => simp only [cacheEvents, hproc, hp]
      cases hmove with
      | crash u => simp [Sys.crash] at hfault
      | lock hpc | head hpc | tail hpc => simpa [hquiet (by simp [hpc])] using h
      | chain hpc | chainDone hpc => simpa [hquiet hpc.ne_visit] using h
      | relock hpc => simpa [hquiet (by simp [hpc])] using h
      | skip hpc hoff => simpa [cacheEvents, hproc, hpc, hoff] using h
      | noMatch hpc hon' v cache hv _ | enter hpc hon' v cache _ hv _ _ =>
          simpa [cacheEvents, hproc, hpc, hon'] using h.lookup hon hl hv

/-- **What the statistics tell**, in every interleaving of dispatches and calls: how often the
table was cleared, how many lookups found a verdict and how many did not, and nothing of the
records that were removed; of those there is one for each verdict that is added when as many as
the table has records have been added since the last clear. -/
theorem cache_statistics {ls : List (Label Ω)} (hon : P.filterCache = true)
    (hclock : ∀ l ∈ ls, ClockStarted l) (hrun : run (sysStep P) (Sys.init P) ls = some s)
    (hfault : s.fault = none) :
    Tallied P s.pm.cache (trace (sysStep P) cacheEvents (Sys.init P) ls) := by
  have hmeets : Meets (sysStep P) (fun _ l => ClockStarted l) (Sys.init P) ls :=
    meets_of_forall_mem fun l hl _ => hclock l hl
  refine run_trace_invariant
    (I := fun (s : Sys Ω) events => s.fault = none → Tallied P s.pm.cache events)
    (fun s l s' events h hl hstep hnone => ?_) (fun _ => tallied_init P) hmeets hrun hfault
  exact sysStep_tallied hon (h (sysStep_move hstep).1) hl hstep hnone

/-- Three measurements with different filter words are dispatched to one record, with a table of
two records. -/
def threeWords : List (Label Unit) :=
  let dispatched (word : BitVec 32) (uptime : ℤ) : List (Label Unit) :=
    .process 64 ⟨⟨word, 0#32, 0#32⟩, []⟩ false ::
      List.replicate 9 (.proc ⟨(), (), uptime, 0#32⟩)
  .other 1 (.register workingChain 2 fun _ => ()) ::
    (dispatched 1 1 ++ dispatched 2 2 ++ dispatched 3 3)

/-- Three verdicts are added, one is removed, and none is counted as removed. -/
theorem cache_statistics_three :
    ∃ s, run (sysStep Platform.twoRecords) (Sys.init Platform.twoRecords) threeWords = some s ∧
      trace (sysStep Platform.twoRecords) cacheEvents (Sys.init Platform.twoRecords) threeWords =
        [.miss false, .miss false, .miss true] ∧
      s.pm.cache.stats.removals = 0 := by
  obtain ⟨s, hrun, hfault⟩ : ∃ s, run (sysStep Platform.twoRecords) (Sys.init Platform.twoRecords)
      threeWords = some s ∧ s.fault = none := ⟨_, rfl, rfl⟩
  exact ⟨s, hrun, by decide, (cache_statistics rfl (by simp [threeWords, ClockStarted]) hrun
    hfault).removals⟩

end Run

end StepPipeline
