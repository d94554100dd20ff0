import StepPipeline.Cache
import StepPipeline.Library.LabelledRun

/-!
# Runs of cache calls

The filter cache under a sequence of `step_cache_clear`, `step_cache_check` and
`step_cache_add`, each with the time at which it is made.

* `CacheUse` and `cacheStep` — the table, and what its history says: the last reading
  of the clock, the key that was just missed, and **which call last used each slot**;
* `CacheMove` — what a call can do to the table;
* `LeastFirst` — the record an insertion overwrites: the first one of those with the
  least time, an empty slot having the time 0 (`insertSlot_eq`);
* `ClockInvariant` — under a clock that does not run backwards the times in the table
  lie between 0 and the last reading.

## History variables

The promise of a least recently used cache is about the order of calls, and the table stores
times.  To compare the two the state carries, besides the table, the number of calls so far and
for each slot the number of the call that last used it.  `cacheStep` never reads them to decide
anything, so a run with them is a run of the table, and they only say what the code could not be
asked.  `madeFor` of a record is such a variable too; the calls here leave it at a default.

## Where results about runs stop

An insertion that finds no slot writes in front of the array.  It is not a step, so that a run of
`cacheStep` is one in which this has not happened, and results that promise it does not happen
have to say that the run goes through.
-/

namespace StepPipeline

open LabelledRun

/-- The key of a record. -/
def StepCacheRec.key (r : StepCacheRec) : BitVec 32 × ℕ := (r.input, r.handle)

/-- A call, with the time at which it is made.  A clear does not read the clock, and neither does
a lookup that finds nothing; giving every lookup a time costs nothing, as the step does not store
one that is not read. -/
inductive CacheOp where
  | clear
  | check (filter : BitVec 32) (handle : ℕ) (uptime : ℤ)
  | add (filter : BitVec 32) (handle : ℕ) (result uptime : ℤ)
  deriving DecidableEq, Repr

/-- The table in use.  Everything but `cache` is a history variable. -/
structure CacheUse where
  cache : StepCache
  /-- The time of the last call that came with one. -/
  now : ℤ
  /-- The key the call before has missed. -/
  missed : Option (BitVec 32 × ℕ)
  /-- The number of calls so far. -/
  calls : ℕ
  /-- The call that last used a slot: the last hit of it, or the last insertion. -/
  usedBy : ℕ → ℕ

/-- The zero-initialised table, before any call. -/
def CacheUse.init (P : Platform) : CacheUse := ⟨.init P, 0, none, 0, fun _ => 0⟩

/-- **One call.**  An insertion that would write outside the table is not a step. -/
def cacheStep (P : Platform) (s : CacheUse) : CacheOp → Option CacheUse
  | .clear =>
      some { s with cache := stepCacheClear P s.cache, missed := none, calls := s.calls + 1 }
  | .check filter handle uptime =>
      let r := stepCacheCheck s.cache filter handle uptime
      some
        { cache := r.2.2
          now := uptime
          missed := if r.1 then none else some (filter, handle)
          calls := s.calls + 1
          usedBy :=
            match s.cache.recs.findIdx? (StepCacheRec.keyed filter handle) with
            | none => s.usedBy
            | some i => Function.update s.usedBy i s.calls }
  | .add filter handle result uptime =>
      match s.cache.insertSlot,
          stepCacheAdd s.cache filter handle result uptime StepCacheRec.zero.madeFor with
      | some i, .ok cache =>
          some
            { cache := cache
              now := uptime
              missed := none
              calls := s.calls + 1
              usedBy := Function.update s.usedBy i s.calls }
      | _, _ => none

/-- The build of the test suite with a cache of two records. -/
def Platform.twoRecords : Platform :=
  { Platform.tests with
    filterCache := true
    cacheDepth := 2
    cacheDepth_pos := by decide }

/-- The clock does not run backwards; `CacheUse.init` starts it at 0.  Equal readings are allowed:
many calls are made within a millisecond. -/
def ClockAdvances (s : CacheUse) : CacheOp → Prop
  | .clear => True
  | .check _ _ uptime => s.now ≤ uptime
  | .add _ _ _ uptime => s.now ≤ uptime

instance (s : CacheUse) : DecidablePred (ClockAdvances s)
  | .clear => isTrue trivial
  | .check _ _ _ => inferInstanceAs (Decidable (_ ≤ _))
  | .add _ _ _ _ => inferInstanceAs (Decidable (_ ≤ _))

/-! ### What a call can do -/

section Slots

variable {c : StepCache} {recs before after : List StepCacheRec} {old new r : StepCacheRec}
  {filter : BitVec 32} {handle : ℕ}

/-- Overwriting the record behind `before`. -/
theorem set_split (h : recs = before ++ old :: after) (new : StepCacheRec) :
    recs.set before.length new = before ++ new :: after := by
  simp [h]

/-- A lookup that finds a record, by its position. -/
theorem findIdx?_keyed_eq (hrecs : recs = before ++ r :: after)
    (hkey : r.keyed filter handle = true)
    (hbefore : ∀ x ∈ before, x.keyed filter handle = false) :
    recs.findIdx? (StepCacheRec.keyed filter handle) = some before.length := by
  have hnone : before.findIdx? (StepCacheRec.keyed filter handle) = none := by
    rw [List.findIdx?_eq_none_iff]
    exact hbefore
  rw [hrecs, List.findIdx?_append, hnone, List.findIdx?_cons, if_pos hkey]
  simp

/-- …and what it answers and writes. -/
theorem stepCacheCheck_split (uptime : ℤ) (hrecs : c.recs = before ++ r :: after)
    (hkey : r.keyed filter handle = true)
    (hbefore : ∀ x ∈ before, x.keyed filter handle = false) :
    (stepCacheCheck c filter handle uptime).1 = true ∧
      (stepCacheCheck c filter handle uptime).2.1 = r.result ∧
      (stepCacheCheck c filter handle uptime).2.2.recs =
        before ++ { r with lastUsed := uptime } :: after := by
  have hget : c.recs.getD before.length .zero = r := by simp [hrecs, List.getD_eq_getElem?_getD]
  simp only [stepCacheCheck, findIdx?_keyed_eq hrecs hkey hbefore, hget, set_split hrecs,
    and_self]

/-- A lookup that finds nothing. -/
theorem stepCacheCheck_none (uptime : ℤ) (hnone : ∀ x ∈ c.recs, x.keyed filter handle = false) :
    (stepCacheCheck c filter handle uptime).1 = false ∧
      (stepCacheCheck c filter handle uptime).2.1 = 0 ∧
      (stepCacheCheck c filter handle uptime).2.2.recs = c.recs := by
  have hfind : c.recs.findIdx? (StepCacheRec.keyed filter handle) = none := by
    rw [List.findIdx?_eq_none_iff]
    exact hnone
  simp only [stepCacheCheck, hfind, and_self]

/-- A lookup finds the first live record with the key, or there is none. -/
theorem keyed_cases (recs : List StepCacheRec) (filter : BitVec 32) (handle : ℕ) :
    (∃ before r after, recs = before ++ r :: after ∧ r.keyed filter handle = true ∧
      ∀ x ∈ before, x.keyed filter handle = false) ∨
    ∀ x ∈ recs, x.keyed filter handle = false := by
  cases hfind : recs.find? (StepCacheRec.keyed filter handle) with
  | none =>
      refine Or.inr fun x hx => ?_
      simpa using List.find?_eq_none.mp hfind x hx
  | some r =>
      obtain ⟨hkey, before, after, hrecs, hbefore⟩ := List.find?_eq_some_iff_append.mp hfind
      exact Or.inl ⟨before, r, after, hrecs, hkey, fun x hx => by simpa using hbefore x hx⟩

end Slots

/-- **What a call can do to the table**: wipe it, set the time of the record it finds, leave it
alone, or overwrite the record of one slot.  The table is written as `before ++ old :: after`, so
that what stays the same can be read off the constructor. -/
inductive CacheMove (P : Platform) (s : CacheUse) : CacheOp → CacheUse → Prop
  | clear : CacheMove P s .clear
      { s with cache := stepCacheClear P s.cache, missed := none, calls := s.calls + 1 }
  | hit {filter : BitVec 32} {handle : ℕ} {uptime : ℤ} {before after : List StepCacheRec}
      {r : StepCacheRec} {c : StepCache} (hrecs : s.cache.recs = before ++ r :: after)
      (hkey : r.keyed filter handle = true)
      (hbefore : ∀ x ∈ before, x.keyed filter handle = false)
      (hcache : c.recs = before ++ { r with lastUsed := uptime } :: after) :
      CacheMove P s (.check filter handle uptime)
        ⟨c, uptime, none, s.calls + 1, Function.update s.usedBy before.length s.calls⟩
  | miss {filter : BitVec 32} {handle : ℕ} {uptime : ℤ} {c : StepCache}
      (hnone : ∀ x ∈ s.cache.recs, x.keyed filter handle = false)
      (hcache : c.recs = s.cache.recs) :
      CacheMove P s (.check filter handle uptime)
        ⟨c, uptime, some (filter, handle), s.calls + 1, s.usedBy⟩
  | add {filter : BitVec 32} {handle : ℕ} {result uptime : ℤ}
      {before after : List StepCacheRec} {old : StepCacheRec} {c : StepCache}
      (hrecs : s.cache.recs = before ++ old :: after)
      (hslot : s.cache.insertSlot = some before.length)
      (hcache : c.recs = before ++
        ⟨filter, handle, result, uptime, StepCacheRec.zero.madeFor⟩ :: after) :
      CacheMove P s (.add filter handle result uptime)
        ⟨c, uptime, none, s.calls + 1, Function.update s.usedBy before.length s.calls⟩

section Moves

variable {P : Platform} {s s' : CacheUse} {op : CacheOp}

/-- The victim scan ends at a record of the table. -/
theorem oldestScan_lt (rs : List StepCacheRec) (i : ℕ) (oldest : ℤ) (free : Option ℕ) {k : ℕ}
    (h : oldestScan rs i oldest free = some k) : free = some k ∨ k < i + rs.length := by
  induction rs generalizing i oldest free with
  | nil => exact Or.inl h
  | cons r rs ih =>
      rw [oldestScan] at h
      rw [List.length_cons]
      split at h
      · rcases ih _ _ _ h with hk | hk
        · obtain rfl := Option.some.inj hk
          exact Or.inr (by omega)
        · exact Or.inr (by omega)
      · rcases ih _ _ _ h with hk | hk
        · exact Or.inl hk
        · exact Or.inr (by omega)

/-- An insertion overwrites a record of the table. -/
theorem insertSlot_lt {c : StepCache} {i : ℕ} (h : c.insertSlot = some i) :
    i < c.recs.length := by
  unfold StepCache.insertSlot at h
  split at h
  · rename_i hfind
    obtain rfl := Option.some.inj h
    exact (List.findIdx?_eq_some_iff_getElem.mp hfind).1
  · rcases oldestScan_lt _ _ _ _ h with hnone | hlt
    · cases hnone
    · omega

theorem cacheStep_move (h : cacheStep P s op = some s') : CacheMove P s op s' := by
  cases op with
  | clear => exact Option.some.inj h ▸ .clear
  | check filter handle uptime =>
      obtain rfl := Option.some.inj h
      rcases keyed_cases s.cache.recs filter handle with
        ⟨before, r, after, hrecs, hkey, hbefore⟩ | hnone
      · obtain ⟨hhit, -, hcache⟩ := stepCacheCheck_split uptime hrecs hkey hbefore
        simp only [findIdx?_keyed_eq hrecs hkey hbefore, hhit]
        exact .hit hrecs hkey hbefore hcache
      · obtain ⟨hmiss, -, hcache⟩ := stepCacheCheck_none uptime hnone
        have hfind : s.cache.recs.findIdx? (StepCacheRec.keyed filter handle) = none := by
          rw [List.findIdx?_eq_none_iff]
          exact hnone
        simp only [hfind, hmiss]
        exact .miss hnone hcache
  | add filter handle result uptime =>
      cases hslot : s.cache.insertSlot with
      | none => simp [cacheStep, hslot] at h
      | some i =>
          simp only [cacheStep, stepCacheAdd, hslot, Option.some_inj] at h
          obtain rfl := h
          obtain ⟨before, old, after, hrecs, rfl⟩ :
              ∃ before old after, s.cache.recs = before ++ old :: after ∧ before.length = i := by
            have hlt := insertSlot_lt hslot
            exact ⟨s.cache.recs.take i, s.cache.recs[i], s.cache.recs.drop (i + 1),
              by simp, by simpa using hlt.le⟩
          exact .add hrecs hslot (set_split hrecs _)

end Moves

/-! ### The record an insertion overwrites -/

/-- **The first of the least times**: no record before it has so small a time, and none behind it
has a smaller one.  The strict inequality on one side and the other on the other side are the
scan's `<`, which keeps the first of equals. -/
def LeastFirst (before : List StepCacheRec) (old : StepCacheRec)
    (after : List StepCacheRec) : Prop :=
  (∀ r ∈ before, old.lastUsed < r.lastUsed) ∧ ∀ r ∈ after, old.lastUsed ≤ r.lastUsed

section Victim

variable {c : StepCache} {recs before after : List StepCacheRec} {old : StepCacheRec}

theorem LeastFirst.le (h : LeastFirst before old after) {r : StepCacheRec}
    (hr : r ∈ before ++ old :: after) : old.lastUsed ≤ r.lastUsed := by
  rcases List.mem_append.mp hr with hr | hr
  · exact (h.1 r hr).le
  · rcases List.mem_cons.mp hr with rfl | hr
    · exact le_rfl
    · exact h.2 r hr

/-- Some record is the first of those with the least time. -/
theorem exists_leastFirst (hne : recs ≠ []) :
    ∃ before old after, recs = before ++ old :: after ∧ LeastFirst before old after := by
  induction recs with
  | nil => exact absurd rfl hne
  | cons r rs ih =>
      cases rs with
      | nil => exact ⟨[], r, [], rfl, by simp [LeastFirst]⟩
      | cons r' rs =>
          obtain ⟨before, old, after, hrecs, hleast⟩ := ih (List.cons_ne_nil _ _)
          by_cases hlt : old.lastUsed < r.lastUsed
          · refine ⟨r :: before, old, after, by rw [hrecs]; rfl, fun x hx => ?_, hleast.2⟩
            rcases List.mem_cons.mp hx with rfl | hx
            · exact hlt
            · exact hleast.1 x hx
          · refine ⟨[], r, r' :: rs, rfl, by simp, fun x hx => ?_⟩
            rw [hrecs] at hx
            exact (not_lt.mp hlt).trans (hleast.le hx)

/-- The victim scan keeps its candidate among records that are not older. -/
theorem oldestScan_of_le (rs : List StepCacheRec) (i : ℕ) (oldest : ℤ) (free : Option ℕ)
    (h : ∀ r ∈ rs, oldest ≤ r.lastUsed) : oldestScan rs i oldest free = free := by
  induction rs generalizing i with
  | nil => rfl
  | cons r rs ih =>
      rw [oldestScan, if_neg (not_lt.mpr (h r List.mem_cons_self))]
      exact ih _ fun x hx => h x (List.mem_cons_of_mem r hx)

/-- **The victim scan ends at the first record with the least time.** -/
theorem oldestScan_eq (hleast : LeastFirst before old after) (i : ℕ) (oldest : ℤ)
    (hlt : old.lastUsed < oldest) (free : Option ℕ) :
    oldestScan (before ++ old :: after) i oldest free = some (i + before.length) := by
  induction before generalizing i oldest free with
  | nil =>
      rw [List.nil_append, oldestScan, if_pos hlt]
      exact oldestScan_of_le after _ _ _ hleast.2
  | cons r rs ih =>
      have hrest : LeastFirst rs old after :=
        ⟨fun x hx => hleast.1 x (List.mem_cons_of_mem r hx), hleast.2⟩
      have hlen : i + (r :: rs).length = i + 1 + rs.length := by
        rw [List.length_cons]
        omega
      rw [List.cons_append, oldestScan, hlen]
      split
      · exact ih hrest _ _ (hleast.1 r List.mem_cons_self) _
      · exact ih hrest _ _ hlt _

/-- **An insertion overwrites the first record with the least time**, an empty one if
there is any. -/
theorem insertSlot_eq (hrecs : c.recs = before ++ old :: after)
    (hleast : LeastFirst before old after) (hnonneg : 0 ≤ old.lastUsed)
    (hlt : old.lastUsed < int64Max) : c.insertSlot = some before.length := by
  unfold StepCache.insertSlot
  by_cases hzero : old.lastUsed = 0
  · have hfind : c.recs.findIdx? (fun r => r.lastUsed == 0) = some before.length := by
      have hnone : before.findIdx? (fun r => r.lastUsed == 0) = none := by
        rw [List.findIdx?_eq_none_iff]
        intro r hr
        have := hleast.1 r hr
        simp only [beq_eq_false_iff_ne, ne_eq]
        omega
      rw [hrecs, List.findIdx?_append, hnone, List.findIdx?_cons, hzero]
      simp
    rw [hfind]
  · have hfind : c.recs.findIdx? (fun r => r.lastUsed == 0) = none := by
      rw [List.findIdx?_eq_none_iff]
      intro r hr
      have := hleast.le (hrecs ▸ hr)
      simp only [beq_eq_false_iff_ne, ne_eq]
      omega
    rw [hfind, hrecs]
    simpa using oldestScan_eq hleast 0 int64Max hlt none

/-- Where every time is at the start value of the scan, an insertion finds no slot. -/
theorem insertSlot_eq_none (h : ∀ r ∈ c.recs, int64Max ≤ r.lastUsed) : c.insertSlot = none := by
  have hfind : c.recs.findIdx? (fun r => r.lastUsed == 0) = none := by
    rw [List.findIdx?_eq_none_iff]
    intro r hr
    have := h r hr
    simp only [beq_eq_false_iff_ne, ne_eq]
    unfold int64Max at this
    omega
  rw [StepCache.insertSlot, hfind]
  exact oldestScan_of_le c.recs 0 int64Max none h

end Victim

/-! ### The clock -/

/-- The table has its size, and its times lie between 0 and the last reading.  Under a clock that
may run backwards neither bound would hold. -/
structure ClockInvariant (P : Platform) (s : CacheUse) : Prop where
  length : s.cache.recs.length = P.cacheDepth
  nonneg : 0 ≤ s.now
  times : ∀ r ∈ s.cache.recs, 0 ≤ r.lastUsed ∧ r.lastUsed ≤ s.now

section Clock

variable {P : Platform} {s s' : CacheUse} {op : CacheOp}

theorem clockInvariant_init (P : Platform) : ClockInvariant P (.init P) where
  length := List.length_replicate
  nonneg := le_rfl
  times r hr := by
    rw [(List.mem_replicate.mp hr).2]
    exact ⟨le_rfl, le_rfl⟩

theorem ClockInvariant.recs_ne_nil (h : ClockInvariant P s) : s.cache.recs ≠ [] := by
  have := P.cacheDepth_pos
  rw [← List.length_pos_iff, h.length]
  omega

/-- Overwriting one record, at the time of the call. -/
theorem ClockInvariant.set (h : ClockInvariant P s) {before after : List StepCacheRec}
    {old new : StepCacheRec} (hrecs : s.cache.recs = before ++ old :: after)
    (hclock : s.now ≤ new.lastUsed) (hcache : s'.cache.recs = before ++ new :: after)
    (hnow : s'.now = new.lastUsed) : ClockInvariant P s' := by
  have hpos := h.nonneg
  refine ⟨?_, by omega, fun r hr => ?_⟩
  · rw [← h.length, hcache, hrecs]
    simp
  · rw [hcache] at hr
    rcases List.mem_append.mp hr with hr | hr
    · have := h.times r (hrecs ▸ List.mem_append_left _ hr)
      omega
    · rcases List.mem_cons.mp hr with rfl | hr
      · omega
      · have := h.times r (hrecs ▸ List.mem_append_right _ (List.mem_cons_of_mem old hr))
        omega

/-- **The step lemma of the clock.** -/
theorem cacheStep_clockInvariant (h : ClockInvariant P s) (hclock : ClockAdvances s op)
    (hstep : cacheStep P s op = some s') : ClockInvariant P s' := by
  cases cacheStep_move hstep with
  | clear =>
      refine ⟨List.length_replicate, h.nonneg, fun r hr => ?_⟩
      rw [(List.mem_replicate.mp hr).2]
      exact ⟨le_rfl, h.nonneg⟩
  | hit hrecs _ _ hcache =>
      refine h.set hrecs ?_ hcache rfl
      exact hclock
  | miss _ hcache =>
      have hpos : s.now ≤ _ := hclock
      refine ⟨hcache ▸ h.length, h.nonneg.trans hpos, fun r hr => ?_⟩
      have := h.times r (hcache ▸ hr)
      exact ⟨this.1, this.2.trans hpos⟩
  | add hrecs _ hcache =>
      refine h.set hrecs ?_ hcache rfl
      exact hclock

end Clock

end StepPipeline
