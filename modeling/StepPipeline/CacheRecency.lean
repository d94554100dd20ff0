import StepPipeline.CacheRuns

/-!
# What the filter cache forgets

The module documentation promises a least recently used cache.  The code knows recency
only as a time in milliseconds, breaks ties by the order of the slots, and takes the time
0 for an empty slot.

* `EvictsLeastRecent` — a full table drops the record used the longest ago, in the order
  of the calls; `evicts_least_recent_iff`: it does exactly while the time of that record
  is shared by no lower slot (`OldestStandsOut`);
* `RemembersUse` — what is added is found again, what is used stays in use, and nothing
  else is dropped while a slot is free; `remembers_use_iff`: this holds exactly while no
  insertion reads the time 0, finds no slot, or lands behind an older record of the same
  key (`AddsFindable`).

## Exactness by slots

Both promises fail on the code in ways that depend on where records lie, so the conditions speak
of slots.  A time is shared when two records were used within one millisecond, and then the lower
slot goes, whichever of the two was used first.  An insertion at uptime 0 writes a record that the
next lookup takes for an empty slot.  A key that is added while an older record of it is still in
the table is found in whichever of the two slots comes first; the dispatcher never does this, but
`step_cache_add` is part of the interface.

For each promise the property and the condition are predicates on the state before a call, and the
equivalence is proved for one call.  The statements about whole sequences follow with `Meets`,
once the invariant is known to hold along the way.
-/

namespace StepPipeline

open LabelledRun

/-! ### Recency -/

/-- The time in a slot. -/
def StepCache.timeAt (c : StepCache) (i : ℕ) : ℤ := (c.recs.getD i .zero).lastUsed

/-- No slot is empty. -/
def StepCache.Full (c : StepCache) : Prop := ∀ i < c.recs.length, c.timeAt i ≠ 0

instance (c : StepCache) : Decidable c.Full :=
  inferInstanceAs (Decidable (∀ i < c.recs.length, _))

/-- **The least recently used slot**, in the order of the calls: every other slot was used by a
later one.  This is the specification; it does not mention time. -/
def CacheUse.LeastRecent (s : CacheUse) (i : ℕ) : Prop :=
  i < s.cache.recs.length ∧ ∀ j < s.cache.recs.length, j ≠ i → s.usedBy i < s.usedBy j

/-- An insertion into a full table drops the least recently used record. -/
def EvictsLeastRecent (s : CacheUse) : CacheOp → Prop
  | .add _ _ _ _ => s.cache.Full → ∃ i, s.cache.insertSlot = some i ∧ s.LeastRecent i
  | _ => True

/-- The time of the least recently used record lies below the start value of the victim scan, and
no lower slot has the same time.  Higher slots may: the scan keeps the first of equals. -/
def OldestStandsOut (s : CacheUse) : CacheOp → Prop
  | .add _ _ _ _ => s.cache.Full → ∃ i, s.LeastRecent i ∧ s.cache.timeAt i < int64Max ∧
      ∀ j < i, s.cache.timeAt j ≠ s.cache.timeAt i
  | _ => True

/-- **Recency and time**: of two records in use, the one used by the earlier call does not have
the later time.  The converse fails, and that is the defect: equal times do not say who was
first. -/
structure RecencyInvariant (P : Platform) (s : CacheUse) : Prop where
  clock : ClockInvariant P s
  stamped : ∀ i < s.cache.recs.length, s.cache.timeAt i ≠ 0 → s.usedBy i < s.calls
  ordered : ∀ i j, i < s.cache.recs.length → j < s.cache.recs.length →
    s.cache.timeAt i ≠ 0 → s.cache.timeAt j ≠ 0 → s.usedBy i < s.usedBy j →
    s.cache.timeAt i ≤ s.cache.timeAt j

section Recency

variable {P : Platform} {s s' : CacheUse} {op : CacheOp} {c : StepCache}
  {before after : List StepCacheRec} {old new : StepCacheRec}

theorem timeAt_of_lt {i : ℕ} (h : i < c.recs.length) : c.timeAt i = c.recs[i].lastUsed := by
  rw [StepCache.timeAt, List.getD_eq_getElem?_getD, List.getElem?_eq_getElem h,
    Option.getD_some]

/-- The slot of a record. -/
theorem timeAt_length (hrecs : c.recs = before ++ old :: after) :
    c.timeAt before.length = old.lastUsed := by
  simp [StepCache.timeAt, hrecs, List.getD_eq_getElem?_getD]

/-- Overwriting a record changes the time in its slot. -/
theorem timeAt_set {c' : StepCache} (hrecs : c.recs = before ++ old :: after)
    (hrecs' : c'.recs = before ++ new :: after) (i : ℕ) :
    c'.timeAt i = if i = before.length then new.lastUsed else c.timeAt i := by
  by_cases hi : i = before.length
  · subst hi
    rw [if_pos rfl, timeAt_length hrecs']
  · rw [if_neg hi, StepCache.timeAt, StepCache.timeAt, hrecs', ← set_split hrecs new,
      List.getD_eq_getElem?_getD, List.getElem?_set_ne (Ne.symm hi),
      ← List.getD_eq_getElem?_getD]

/-- Slots in front of the first least time have later times, the others no earlier ones. -/
theorem leastFirst_iff (hrecs : c.recs = before ++ old :: after) :
    LeastFirst before old after ↔
      (∀ j < before.length, c.timeAt before.length < c.timeAt j) ∧
        ∀ j < c.recs.length, c.timeAt before.length ≤ c.timeAt j := by
  have hmem : ∀ j (hj : j < c.recs.length), c.recs[j] ∈ before ++ old :: after :=
    fun j hj => hrecs ▸ List.getElem_mem hj
  rw [timeAt_length hrecs]
  constructor
  · intro h
    refine ⟨fun j hj => ?_, fun j hj => ?_⟩
    · have hlt : j < c.recs.length := by
        rw [hrecs, List.length_append]
        omega
      rw [timeAt_of_lt hlt]
      have hget : c.recs[j] = before[j] := by
        simp only [hrecs, List.getElem_append_left hj]
      exact hget ▸ h.1 _ (List.getElem_mem hj)
    · rw [timeAt_of_lt hj]
      exact h.le (hmem j hj)
  · rintro ⟨hbefore, hall⟩
    refine ⟨fun r hr => ?_, fun r hr => ?_⟩
    · obtain ⟨j, hj, rfl⟩ := List.mem_iff_getElem.mp hr
      have hlt : j < c.recs.length := by
        rw [hrecs, List.length_append]
        omega
      have hget : c.recs[j] = before[j] := by
        simp only [hrecs, List.getElem_append_left hj]
      have := hbefore j hj
      rwa [timeAt_of_lt hlt, hget] at this
    · have hr' : r ∈ c.recs := hrecs ▸ List.mem_append_right _ (List.mem_cons_of_mem old hr)
      obtain ⟨j, hj, rfl⟩ := List.mem_iff_getElem.mp hr'
      have := hall j hj
      rwa [timeAt_of_lt hj] at this

/-- **The slot of an insertion**: the first of those with the least time, provided that
lies below the start value of the scan. -/
theorem ClockInvariant.insertSlot_iff (h : ClockInvariant P s) {i : ℕ} :
    s.cache.insertSlot = some i ↔ i < s.cache.recs.length ∧ s.cache.timeAt i < int64Max ∧
      (∀ j < i, s.cache.timeAt i < s.cache.timeAt j) ∧
      ∀ j < s.cache.recs.length, s.cache.timeAt i ≤ s.cache.timeAt j := by
  obtain ⟨before, old, after, hrecs, hleast⟩ := exists_leastFirst h.recs_ne_nil
  have hmem : old ∈ s.cache.recs := hrecs ▸ by simp
  have htime := timeAt_length hrecs
  have hlen : before.length < s.cache.recs.length := by
    rw [hrecs, List.length_append, List.length_cons]
    omega
  obtain ⟨hbefore, hall⟩ := (leastFirst_iff hrecs).mp hleast
  constructor
  · intro hslot
    by_cases hlt : old.lastUsed < int64Max
    · obtain rfl : before.length = i := by
        have := insertSlot_eq hrecs hleast (h.times old hmem).1 hlt
        exact Option.some.inj (this.symm.trans hslot)
      exact ⟨hlen, htime ▸ hlt, hbefore, hall⟩
    · have hnone : s.cache.insertSlot = none :=
        insertSlot_eq_none fun r hr => (not_lt.mp hlt).trans (hleast.le (hrecs ▸ hr))
      rw [hnone] at hslot
      cases hslot
  · rintro ⟨hi, hmax, hfirst, hle⟩
    -- the two are slots of the least time in front of which there is none
    have hslot : i = before.length := by
      rcases lt_trichotomy i before.length with hlt | heq | hgt
      · have := hbefore i hlt
        have := hle before.length hlen
        omega
      · exact heq
      · have := hfirst before.length hgt
        have := hall i hi
        omega
    subst hslot
    exact insertSlot_eq hrecs hleast (h.times old hmem).1 (htime ▸ hmax)

theorem recencyInvariant_init (P : Platform) : RecencyInvariant P (.init P) := by
  have hzero : ∀ i < (CacheUse.init P).cache.recs.length,
      (CacheUse.init P).cache.timeAt i = 0 := by
    intro i hi
    rw [timeAt_of_lt hi]
    simp [CacheUse.init, StepCache.init, StepCacheRec.zero]
  exact ⟨clockInvariant_init P, fun i hi hne => absurd (hzero i hi) hne,
    fun i _ hi _ hne _ _ => absurd (hzero i hi) hne⟩

/-- Using a slot keeps recency and time in line: it gets the latest call and the latest
time. -/
theorem RecencyInvariant.use (h : RecencyInvariant P s) (hclock : ClockInvariant P s')
    (hrecs : s.cache.recs = before ++ old :: after)
    (hrecs' : s'.cache.recs = before ++ new :: after) (hnow : s.now ≤ new.lastUsed)
    (hcalls : s'.calls = s.calls + 1)
    (hused : s'.usedBy = Function.update s.usedBy before.length s.calls) :
    RecencyInvariant P s' := by
  have hlen : s'.cache.recs.length = s.cache.recs.length := by
    rw [hclock.length, h.clock.length]
  have htime := timeAt_set hrecs hrecs'
  refine ⟨hclock, fun i hi hlive => ?_, fun i j hi hj hlivei hlivej hlt => ?_⟩
  · rw [hused, hcalls]
    by_cases hib : i = before.length
    · rw [hib, Function.update_self]
      omega
    · rw [htime, if_neg hib] at hlive
      rw [Function.update_of_ne hib]
      have := h.stamped i (hlen ▸ hi) hlive
      omega
  · rw [hused] at hlt
    rw [htime] at hlivei hlivej ⊢
    rw [htime j]
    by_cases hjb : j = before.length
    · by_cases hib : i = before.length
      · rw [hib, hjb]
      · -- the slot just used has the latest time
        rw [if_neg hib, if_pos hjb, timeAt_of_lt (hlen ▸ hi)]
        exact (h.clock.times _ (List.getElem_mem _)).2.trans hnow
    · rw [if_neg hjb] at hlivej ⊢
      rw [Function.update_of_ne hjb] at hlt
      have hstamp := h.stamped j (hlen ▸ hj) hlivej
      by_cases hib : i = before.length
      · rw [hib, Function.update_self] at hlt
        omega
      · rw [if_neg hib] at hlivei ⊢
        rw [Function.update_of_ne hib] at hlt
        exact h.ordered i j (hlen ▸ hi) (hlen ▸ hj) hlivei hlivej hlt

/-- **The step lemma of recency.** -/
theorem cacheStep_recencyInvariant (h : RecencyInvariant P s) (hop : ClockAdvances s op)
    (hstep : cacheStep P s op = some s') : RecencyInvariant P s' := by
  have hclock := cacheStep_clockInvariant h.clock hop hstep
  cases cacheStep_move hstep with
  | clear =>
      have hzero : ∀ i < (stepCacheClear P s.cache).recs.length,
          (stepCacheClear P s.cache).timeAt i = 0 := by
        intro i hi
        rw [timeAt_of_lt hi]
        simp [stepCacheClear, StepCacheRec.zero]
      exact ⟨hclock, fun i hi hne => absurd (hzero i hi) hne,
        fun i _ hi _ hne _ _ => absurd (hzero i hi) hne⟩
  | hit hrecs _ _ hcache =>
      refine h.use hclock hrecs hcache ?_ rfl rfl
      exact hop
  | @miss _ _ _ c hnone hcache =>
      have htime : ∀ i, c.timeAt i = s.cache.timeAt i := fun i => by
        rw [StepCache.timeAt, hcache, ← StepCache.timeAt]
      refine ⟨hclock, fun i hi hlive => ?_, fun i j hi hj hlivei hlivej hlt => ?_⟩
      · have := h.stamped i (hcache ▸ hi) (htime i ▸ hlive)
        exact this.trans (Nat.lt_succ_self _)
      · have := h.ordered i j (hcache ▸ hi) (hcache ▸ hj) (htime i ▸ hlivei) (htime j ▸ hlivej) hlt
        exact (htime i).symm ▸ (htime j).symm ▸ this
  | add hrecs _ hcache =>
      refine h.use hclock hrecs hcache ?_ rfl rfl
      exact hop

/-- An insertion drops the least recently used record exactly if its time stands out. -/
theorem evictsLeastRecent_iff (h : RecencyInvariant P s) (op : CacheOp) :
    EvictsLeastRecent s op ↔ OldestStandsOut s op := by
  cases op with
  | clear => exact Iff.rfl
  | check _ _ _ => exact Iff.rfl
  | add _ _ _ _ =>
      refine forall_congr' fun hfull => exists_congr fun i => ?_
      rw [h.clock.insertSlot_iff]
      constructor
      · rintro ⟨⟨-, hmax, hfirst, -⟩, hleast⟩
        exact ⟨hleast, hmax, fun j hj => (hfirst j hj).ne'⟩
      · rintro ⟨hleast, hmax, hne⟩
        -- recency orders the times up to ties
        have hle : ∀ j < s.cache.recs.length, s.cache.timeAt i ≤ s.cache.timeAt j := by
          intro j hj
          by_cases hji : j = i
          · rw [hji]
          · exact h.ordered i j hleast.1 hj (hfull i hleast.1) (hfull j hj)
              (hleast.2 j hj hji)
        refine ⟨⟨hleast.1, hmax, fun j hj => ?_, hle⟩, hleast⟩
        exact lt_of_le_of_ne (hle j (hj.trans hleast.1)) (hne j hj).symm

/-- **Least recently used, exactly.**  For every depth and every sequence of calls under a
clock that does not run backwards, all insertions into a full table drop the least
recently used record if and only if its time stands out each time. -/
theorem evicts_least_recent_iff (P : Platform) {ops : List CacheOp}
    (hops : Meets (cacheStep P) ClockAdvances (.init P) ops) :
    Meets (cacheStep P) EvictsLeastRecent (.init P) ops ↔
      Meets (cacheStep P) OldestStandsOut (.init P) ops :=
  meets_congr (fun _ _ _ hI hop hstep => cacheStep_recencyInvariant hI hop hstep)
    (fun _ op hI _ => evictsLeastRecent_iff hI op) (recencyInvariant_init P) hops

/-- The same calls a millisecond apart. -/
theorem evicts_least_recent_iff_apart :
    let ops : List CacheOp := [.check 1#32 0 5, .add 1#32 0 1 6, .check 2#32 0 7,
      .add 2#32 0 1 8, .check 1#32 0 9, .check 3#32 0 10, .add 3#32 0 1 11]
    Meets (cacheStep .twoRecords) EvictsLeastRecent (.init .twoRecords) ops ↔
      Meets (cacheStep .twoRecords) OldestStandsOut (.init .twoRecords) ops :=
  evicts_least_recent_iff .twoRecords (by decide)

/-- Two keys in a table of two records, the first one used again before a third comes;
the clock stands still meanwhile. -/
def sameTime : List CacheOp :=
  [.check 1#32 0 5, .add 1#32 0 1 5, .check 2#32 0 5, .add 2#32 0 1 5, .check 1#32 0 5,
    .check 3#32 0 5]

/-- **A record used more recently is dropped**: the first key makes room for the third,
although it was used after the second. -/
theorem evicts_more_recent :
    Meets (cacheStep .twoRecords) ClockAdvances (.init .twoRecords)
        (sameTime ++ [.add 3#32 0 1 5]) ∧
      ¬Meets (cacheStep .twoRecords) EvictsLeastRecent (.init .twoRecords)
        (sameTime ++ [.add 3#32 0 1 5]) := by
  refine ⟨by decide, fun h => ?_⟩
  obtain ⟨s, hrun, hfull, hslot, hlater⟩ : ∃ s,
      run (cacheStep .twoRecords) (.init .twoRecords) sameTime = some s ∧ s.cache.Full ∧
        s.cache.insertSlot = some 0 ∧ 1 < s.cache.recs.length ∧ s.usedBy 1 < s.usedBy 0 :=
    ⟨_, rfl, by decide, by decide, by decide, by decide⟩
  obtain ⟨i, hi, hleast⟩ := h.at_step hrun hfull
  obtain rfl : 0 = i := Option.some.inj (hslot.symm.trans hi)
  exact absurd (hleast.2 1 hlater.1 one_ne_zero) hlater.2.asymm

end Recency

/-! ### Remembering -/

/-- **What a call must not forget.**  The record a hit uses stays in use, and the others
are not touched.  An insertion is found again right away, under every time; it puts a
record in use, and it drops one only where no slot is free. -/
def RemembersUse (s : CacheUse) : CacheOp → Prop
  | .clear => True
  | .check filter handle uptime =>
      let r := stepCacheCheck s.cache filter handle uptime
      r.1 = true → uptime ≠ 0 ∧ ∃ before x after, s.cache.recs = before ++ x :: after ∧
        r.2.2.recs = before ++ { x with lastUsed := uptime } :: after
  | .add filter handle result uptime =>
      uptime ≠ 0 ∧ ∃ c before old after,
        stepCacheAdd s.cache filter handle result uptime StepCacheRec.zero.madeFor = .ok c ∧
        s.cache.recs = before ++ old :: after ∧
        s.cache.insertSlot = some before.length ∧
        c.recs = before ++
          ⟨filter, handle, result, uptime, StepCacheRec.zero.madeFor⟩ :: after ∧
        (¬s.cache.Full → old.lastUsed = 0) ∧
        ∀ uptime', (stepCacheCheck c filter handle uptime').1 = true ∧
          (stepCacheCheck c filter handle uptime').2.1 = result

/-- What an insertion needs for that: a time other than 0; a record whose time lies below the
start value of the victim scan; and, in front of the first record with the least time, no record
of the same key with another result. -/
def AddsFindable (s : CacheUse) : CacheOp → Prop
  | .add filter handle result uptime =>
      uptime ≠ 0 ∧ ∃ before old after, s.cache.recs = before ++ old :: after ∧
        LeastFirst before old after ∧ old.lastUsed < int64Max ∧
        ∀ x, before.find? (StepCacheRec.keyed filter handle) = some x → x.result = result
  | _ => True

section Remembering

variable {P : Platform} {s : CacheUse} {c : StepCache} {before after : List StepCacheRec}
  {old : StepCacheRec} {filter : BitVec 32} {handle : ℕ} {result uptime : ℤ}
  {madeFor : StepMeasurement}

/-- **A lookup of the key just added** finds it, or an older record of the key in a lower
slot. -/
theorem check_added_iff (huptime : uptime ≠ 0)
    (hrecs : c.recs = before ++ ⟨filter, handle, result, uptime, madeFor⟩ :: after) :
    (∀ uptime', (stepCacheCheck c filter handle uptime').1 = true ∧
        (stepCacheCheck c filter handle uptime').2.1 = result) ↔
      ∀ x, before.find? (StepCacheRec.keyed filter handle) = some x → x.result = result := by
  rcases keyed_cases before filter handle with
    ⟨first, x, rest, hbefore, hkey, hfirst⟩ | hnone
  · have hsplit : c.recs = first ++ x ::
        (rest ++ ⟨filter, handle, result, uptime, madeFor⟩ :: after) := by
      rw [hrecs, hbefore]
      simp
    have hfind : before.find? (StepCacheRec.keyed filter handle) = some x := by
      rw [List.find?_eq_some_iff_append]
      exact ⟨hkey, first, rest, hbefore, fun y hy => by simp [hfirst y hy]⟩
    rw [hfind]
    constructor
    · rintro h y ⟨⟩
      exact (stepCacheCheck_split 0 hsplit hkey hfirst).2.1 ▸ (h 0).2
    · intro h uptime'
      obtain ⟨hhit, hresult, -⟩ := stepCacheCheck_split uptime' hsplit hkey hfirst
      exact ⟨hhit, hresult.trans (h x rfl)⟩
  · have hkey : StepCacheRec.keyed filter handle ⟨filter, handle, result, uptime, madeFor⟩ =
        true := keyed_iff.mpr ⟨huptime, rfl, rfl⟩
    have hfind : before.find? (StepCacheRec.keyed filter handle) = none := by
      rw [List.find?_eq_none]
      exact fun y hy => by simp [hnone y hy]
    rw [hfind]
    refine iff_of_true (fun uptime' => ?_) (fun _ h => by cases h)
    obtain ⟨hhit, hresult, -⟩ := stepCacheCheck_split uptime' hrecs hkey hnone
    exact ⟨hhit, hresult⟩

/-- A hit never makes its record count as empty: its time is not 0, so neither is the
clock any more. -/
theorem remembersUse_check (h : ClockInvariant P s) (huptime : s.now ≤ uptime) :
    RemembersUse s (.check filter handle uptime) := by
  intro hhit
  rcases keyed_cases s.cache.recs filter handle with
    ⟨before, x, after, hrecs, hkey, hbefore⟩ | hnone
  · have hx := h.times x (hrecs ▸ by simp)
    have hlive := (keyed_iff.mp hkey).1
    exact ⟨by omega, before, x, after, hrecs,
      (stepCacheCheck_split uptime hrecs hkey hbefore).2.2⟩
  · rw [(stepCacheCheck_none uptime hnone).1] at hhit
    cases hhit

/-- A call forgets nothing it must not forget exactly if it adds findably. -/
theorem remembersUse_iff (h : ClockInvariant P s) {op : CacheOp} (hop : ClockAdvances s op) :
    RemembersUse s op ↔ AddsFindable s op := by
  cases op with
  | clear => exact Iff.rfl
  | check filter handle uptime => exact iff_of_true (remembersUse_check h hop) trivial
  | add filter handle result uptime =>
      refine and_congr_right fun huptime => ?_
      constructor
      · rintro ⟨c, before, old, after, -, hrecs, hslot, hcache, -, hfound⟩
        obtain ⟨-, hmax, hfirst, hle⟩ := h.insertSlot_iff.mp hslot
        exact ⟨before, old, after, hrecs, (leastFirst_iff hrecs).mpr ⟨hfirst, hle⟩,
          timeAt_length hrecs ▸ hmax, (check_added_iff huptime hcache).mp hfound⟩
      · rintro ⟨before, old, after, hrecs, hleast, hmax, hresult⟩
        have hold := h.times old (hrecs ▸ by simp)
        have hslot := insertSlot_eq hrecs hleast hold.1 hmax
        refine ⟨_, before, old, after, by rw [stepCacheAdd, hslot], hrecs, hslot,
          set_split hrecs _, fun hfree => ?_, ?_⟩
        · -- an empty slot has the least time there is
          simp only [StepCache.Full, not_forall, not_not] at hfree
          obtain ⟨i, hi, hzero⟩ := hfree
          rw [timeAt_of_lt hi] at hzero
          have hmem : s.cache.recs[i] ∈ before ++ old :: after :=
            hrecs.subst (motive := fun l => s.cache.recs[i] ∈ l) (List.getElem_mem hi)
          have := hleast.le hmem
          omega
        · exact (check_added_iff huptime (set_split hrecs _)).mpr hresult

/-- **The cache remembers, exactly.**  For every sequence of calls under a clock that does
not run backwards from 0, no call forgets anything it must not forget if and only if all
insertions add findably. -/
theorem remembers_use_iff (P : Platform) {ops : List CacheOp}
    (hops : Meets (cacheStep P) ClockAdvances (.init P) ops) :
    Meets (cacheStep P) RemembersUse (.init P) ops ↔
      Meets (cacheStep P) AddsFindable (.init P) ops :=
  meets_congr (fun _ _ _ hI hop hstep => cacheStep_clockInvariant hI hop hstep)
    (fun _ _ hI hop => remembersUse_iff hI hop) (clockInvariant_init P) hops

/-- A hit and a drop, from the first millisecond on. -/
theorem remembers_use_iff_first_millisecond :
    let ops : List CacheOp := [.check 1#32 0 0, .add 1#32 0 1 1, .check 1#32 0 1,
      .add 2#32 0 1 2, .add 3#32 0 0 2]
    Meets (cacheStep .twoRecords) RemembersUse (.init .twoRecords) ops ↔
      Meets (cacheStep .twoRecords) AddsFindable (.init .twoRecords) ops :=
  remembers_use_iff .twoRecords (by decide)

/-- **Forgotten at once**: what is added in the first millisecond after boot is not found
right afterwards. -/
theorem added_at_zero_forgotten :
    let ops : List CacheOp := [.check 1#32 0 0, .add 1#32 0 1 0]
    Meets (cacheStep .twoRecords) ClockAdvances (.init .twoRecords) ops ∧
      (∃ s, run (cacheStep .twoRecords) (.init .twoRecords) ops = some s ∧
        (stepCacheCheck s.cache 1#32 0 0).1 = false) ∧
      ¬Meets (cacheStep .twoRecords) RemembersUse (.init .twoRecords) ops := by
  refine ⟨by decide, ⟨_, rfl, by decide⟩, fun h => ?_⟩
  obtain ⟨s, hrun⟩ : ∃ s, run (cacheStep .twoRecords) (.init .twoRecords)
      [.check 1#32 0 0] = some s := ⟨_, rfl⟩
  have hadd : RemembersUse s (.add 1#32 0 1 0) :=
    @Meets.at_step _ _ _ _ _ [.check 1#32 0 0] [] _ _ h hrun
  exact hadd.1 rfl

end Remembering

end StepPipeline
