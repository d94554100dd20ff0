import StepPipeline.Kernel
import StepPipeline.Measurement

/-!
# The filter cache

`cache.c`: a table of at most `CONFIG_STEP_FILTER_CACHE_DEPTH` records, searched
linearly, with the uptime of the last use of each record.  A record whose
`last_used` is 0 is an empty slot.

* `stepCacheCheck`, `stepCacheAdd`, `stepCacheClear` — the code; the reading of
  `k_uptime_get` an operation takes is an argument;
* `Coherent V` — every live record satisfies `V`; the three operations preserve
  it, whatever they overwrite, for every clock;
* `insertSlot_isSome` — an insertion into a table whose times are below the start
  value of the victim scan finds a slot.

## Reading `cache.c`

The loops of the source run over the array and return from the middle; here they are searches of a
list, which stop at the same record for the same reason.  The victim scan is the exception: it
keeps the least time seen so far, which starts at `INT64_MAX`, and the index where it was seen,
which starts at -1.  It is transcribed with both, because the start values matter: a table in
which every time equals the start value leaves the index at -1.

The times are integers.  In C they are `int64_t` readings of a clock that counts milliseconds
since boot; the model lets the clock read anything and leaves it to each result to say what it
needs.  The counters of the statistics are 32 bits wide and wrap.
-/

namespace StepPipeline

/-- `struct step_cache_rec`.  The `int` verdict is stored in an unsigned field
and read back into an `int`, which gives the value back.  `madeFor` is a history
variable: the measurement whose evaluation the record keeps. -/
structure StepCacheRec where
  input : BitVec 32
  handle : ℕ
  result : ℤ
  lastUsed : ℤ
  madeFor : StepMeasurement
  deriving DecidableEq, Repr

/-- A record wiped by `memset`. -/
def StepCacheRec.zero : StepCacheRec := ⟨0#32, 0, 0, 0, ⟨⟨0#32, 0#32, 0#32⟩, []⟩⟩

/-- `struct step_cache_stats`. -/
structure StepCacheStats where
  clearCalls : BitVec 32
  checkCalls : BitVec 32
  addCalls : BitVec 32
  /-- The member `matches`. -/
  hits : BitVec 32
  removals : BitVec 32
  deriving DecidableEq, Repr

/-- The statics of `cache.c`. -/
structure StepCache where
  recs : List StepCacheRec
  stats : StepCacheStats
  deriving DecidableEq, Repr

/-- The zero-initialised statics. -/
def StepCache.init (P : Platform) : StepCache :=
  ⟨List.replicate P.cacheDepth .zero, ⟨0, 0, 0, 0, 0⟩⟩

/-- `step_cache_clear`. -/
def stepCacheClear (P : Platform) (c : StepCache) : StepCache :=
  ⟨List.replicate P.cacheDepth .zero, { c.stats with clearCalls := c.stats.clearCalls + 1 }⟩

/-- The test of the lookup loop. -/
def StepCacheRec.keyed (filter : BitVec 32) (handle : ℕ) (r : StepCacheRec) : Bool :=
  r.lastUsed ≠ 0 && r.input == filter && r.handle == handle

/-- `step_cache_check`: the return value, `*result`, and the table afterwards.  A miss stores 0
through the pointer, so that the caller's variable is overwritten in either case, and it leaves
every record alone; a hit writes the time of the record it found. -/
def stepCacheCheck (c : StepCache) (filter : BitVec 32) (handle : ℕ) (uptime : ℤ) :
    Bool × ℤ × StepCache :=
  let stats := { c.stats with checkCalls := c.stats.checkCalls + 1 }
  match c.recs.findIdx? (StepCacheRec.keyed filter handle) with
  | none => (false, 0, { c with stats := stats })
  | some i =>
      (true, (c.recs.getD i .zero).result,
        { recs := c.recs.set i { c.recs.getD i .zero with lastUsed := uptime }
          stats := { stats with hits := stats.hits + 1 } })

/-- `0x7FFFFFFFFFFFFFFF`, the start value of the victim scan. -/
def int64Max : ℤ := 0x7FFFFFFFFFFFFFFF

/-- The victim scan of `step_cache_add` from index `i` on: the index `free` of
the first record with the least time below `oldest`; `none` is the `-1` that
`free` starts from. -/
def oldestScan : List StepCacheRec → ℕ → ℤ → Option ℕ → Option ℕ
  | [], _, _, free => free
  | r :: rs, i, oldest, free =>
      if r.lastUsed < oldest then oldestScan rs (i + 1) r.lastUsed (some i)
      else oldestScan rs (i + 1) oldest free

/-- The value of `free` at the label `insert` of `step_cache_add`: the first empty slot, else the
least recently used one.  `none` is the -1 that is left when there is neither. -/
def StepCache.insertSlot (c : StepCache) : Option ℕ :=
  match c.recs.findIdx? fun r => r.lastUsed == 0 with
  | some i => some i
  | none => oldestScan c.recs 0 int64Max none

/-- `step_cache_add`.  When the scan leaves `free` at -1 the record before the table is wiped and
written, which is outside the array.  Whether the key is in the table already is not looked at:
adding it twice makes two records of it. -/
def stepCacheAdd (c : StepCache) (filter : BitVec 32) (handle : ℕ) (result : ℤ)
    (uptime : ℤ) (madeFor : StepMeasurement) : Except UndefinedBehaviour StepCache :=
  match c.insertSlot with
  | none => .error .outOfBounds
  | some i =>
      .ok
        { recs := c.recs.set i ⟨filter, handle, result, uptime, madeFor⟩
          stats := { c.stats with addCalls := c.stats.addCalls + 1 } }

/-! ### Coherence -/

/-- The record a lookup finds: the first live one that has the key. -/
def StepCache.lookup (c : StepCache) (filter : BitVec 32) (handle : ℕ) :
    Option StepCacheRec :=
  c.recs.find? (StepCacheRec.keyed filter handle)

/-- **Coherence** of a table with a relation between a key, a result and the measurement the
result was made for: it holds of every live record.  As the operations never make up a record,
whatever is true of each record when it is added stays true of it, however others are
overwritten. -/
def Coherent (V : BitVec 32 → ℕ → ℤ → StepMeasurement → Prop) (c : StepCache) : Prop :=
  ∀ r ∈ c.recs, r.lastUsed ≠ 0 → V r.input r.handle r.result r.madeFor

/-- The times in the table lie below the start value of the victim scan.  This is all an insertion
into a full table needs to find a slot. -/
def TimesBounded (c : StepCache) : Prop := ∀ r ∈ c.recs, r.lastUsed < int64Max

section Coherence

variable {V : BitVec 32 → ℕ → ℤ → StepMeasurement → Prop} {c c' : StepCache}
  {filter : BitVec 32} {handle : ℕ} {result uptime : ℤ} {madeFor : StepMeasurement}
  {r : StepCacheRec}

theorem Coherent.mono {V' : BitVec 32 → ℕ → ℤ → StepMeasurement → Prop}
    (h : Coherent V c) (himp : ∀ f k res m, V f k res m → V' f k res m) : Coherent V' c :=
  fun r hr hlive => himp _ _ _ _ (h r hr hlive)

/-- A wiped table is coherent with everything. -/
theorem coherent_of_zero (h : ∀ r ∈ c.recs, r = .zero) : Coherent V c := by
  intro r hr hlive
  rw [h r hr] at hlive
  exact absurd rfl hlive

theorem coherent_clear (P : Platform) : Coherent V (stepCacheClear P c) :=
  coherent_of_zero fun _ hr => (List.mem_replicate.mp hr).2

theorem coherent_init (P : Platform) : Coherent V (StepCache.init P) :=
  coherent_of_zero fun _ hr => (List.mem_replicate.mp hr).2

theorem keyed_iff :
    r.keyed filter handle = true ↔
      r.lastUsed ≠ 0 ∧ r.input = filter ∧ r.handle = handle := by
  simp [StepCacheRec.keyed, and_assoc]

theorem Coherent.of_lookup (h : Coherent V c) (hr : c.lookup filter handle = some r) :
    V filter handle r.result r.madeFor := by
  obtain ⟨hlive, rfl, rfl⟩ := keyed_iff.mp (List.find?_some hr)
  exact h r (List.mem_of_find?_eq_some hr) hlive

/-- A lookup that finds nothing leaves the records alone. -/
theorem stepCacheCheck_miss (h : c.lookup filter handle = none) :
    (stepCacheCheck c filter handle uptime).1 = false ∧
      (stepCacheCheck c filter handle uptime).2.2.recs = c.recs := by
  have hfind : c.recs.findIdx? (StepCacheRec.keyed filter handle) = none := by
    rw [List.findIdx?_eq_none_iff]
    intro r hr
    simpa using List.find?_eq_none.mp h r hr
  simp only [stepCacheCheck, hfind, and_self]

/-- A lookup that finds a record yields its result and sets its time. -/
theorem stepCacheCheck_hit (h : c.lookup filter handle = some r) :
    (stepCacheCheck c filter handle uptime).1 = true ∧
      (stepCacheCheck c filter handle uptime).2.1 = r.result ∧
      ∃ i, (stepCacheCheck c filter handle uptime).2.2.recs =
        c.recs.set i { r with lastUsed := uptime } := by
  obtain ⟨hkey, i, hi, rfl, hfirst⟩ := List.find?_eq_some_iff_getElem.mp h
  have hfind : c.recs.findIdx? (StepCacheRec.keyed filter handle) = some i := by
    rw [List.findIdx?_eq_some_iff_getElem]
    exact ⟨hi, hkey, fun j hj => by simpa using hfirst j hj⟩
  have hget : c.recs.getD i .zero = c.recs[i] := by
    simp [List.getD_eq_getElem?_getD, hi]
  simp only [stepCacheCheck, hfind, hget, true_and]
  exact ⟨i, rfl⟩

/-- A lookup changes at most the time of a live record. -/
theorem mem_stepCacheCheck {r' : StepCacheRec}
    (hr' : r' ∈ (stepCacheCheck c filter handle uptime).2.2.recs) :
    r' ∈ c.recs ∨ ∃ r ∈ c.recs, r.lastUsed ≠ 0 ∧ r' = { r with lastUsed := uptime } := by
  cases hfind : c.lookup filter handle with
  | none =>
      rw [(stepCacheCheck_miss hfind).2] at hr'
      exact Or.inl hr'
  | some r =>
      obtain ⟨-, -, i, hrecs⟩ := @stepCacheCheck_hit _ _ _ uptime _ hfind
      rw [hrecs] at hr'
      rcases List.mem_or_eq_of_mem_set hr' with hmem | rfl
      · exact Or.inl hmem
      · exact Or.inr ⟨r, List.mem_of_find?_eq_some hfind,
          (keyed_iff.mp (List.find?_some hfind)).1, rfl⟩

theorem Coherent.check (h : Coherent V c) :
    Coherent V (stepCacheCheck c filter handle uptime).2.2 := by
  intro r' hr' hlive'
  rcases mem_stepCacheCheck hr' with hmem | ⟨r, hr, hlive, rfl⟩
  · exact h r' hmem hlive'
  · exact h r hr hlive

theorem TimesBounded.check (h : TimesBounded c) (hup : uptime < int64Max) :
    TimesBounded (stepCacheCheck c filter handle uptime).2.2 := by
  intro r' hr'
  rcases mem_stepCacheCheck hr' with hmem | ⟨r, -, -, rfl⟩
  · exact h r' hmem
  · exact hup

theorem stepCacheCheck_length :
    (stepCacheCheck c filter handle uptime).2.2.recs.length = c.recs.length := by
  cases hfind : c.lookup filter handle with
  | none => rw [(stepCacheCheck_miss hfind).2]
  | some r =>
      obtain ⟨-, -, i, hrecs⟩ := @stepCacheCheck_hit _ _ _ uptime _ hfind
      rw [hrecs, List.length_set]

/-- An insertion writes one record and keeps the others or loses them. -/
theorem stepCacheAdd_eq_ok
    (h : stepCacheAdd c filter handle result uptime madeFor = .ok c') :
    ∃ i, c'.recs = c.recs.set i ⟨filter, handle, result, uptime, madeFor⟩ := by
  unfold stepCacheAdd at h
  cases hslot : c.insertSlot with
  | none => simp [hslot] at h
  | some i =>
      simp only [hslot, Except.ok.injEq] at h
      exact ⟨i, by rw [← h]⟩

theorem Coherent.add (h : Coherent V c) (hnew : V filter handle result madeFor)
    (hadd : stepCacheAdd c filter handle result uptime madeFor = .ok c') : Coherent V c' := by
  obtain ⟨i, hrecs⟩ := stepCacheAdd_eq_ok hadd
  intro r hr hlive
  rw [hrecs] at hr
  rcases List.mem_or_eq_of_mem_set hr with hmem | rfl
  · exact h r hmem hlive
  · exact hnew

theorem TimesBounded.add (h : TimesBounded c) (hup : uptime < int64Max)
    (hadd : stepCacheAdd c filter handle result uptime madeFor = .ok c') :
    TimesBounded c' := by
  obtain ⟨i, hrecs⟩ := stepCacheAdd_eq_ok hadd
  intro r hr
  rw [hrecs] at hr
  rcases List.mem_or_eq_of_mem_set hr with hmem | rfl
  · exact h r hmem
  · exact hup

theorem stepCacheAdd_length
    (hadd : stepCacheAdd c filter handle result uptime madeFor = .ok c') :
    c'.recs.length = c.recs.length := by
  obtain ⟨i, hrecs⟩ := stepCacheAdd_eq_ok hadd
  rw [hrecs, List.length_set]

/-- Once the scan has a candidate it ends with one. -/
theorem oldestScan_isSome_of_some (rs : List StepCacheRec) (i k : ℕ) (oldest : ℤ) :
    (oldestScan rs i oldest (some k)).isSome := by
  induction rs generalizing i oldest k with
  | nil => rfl
  | cons r rs ih =>
      rw [oldestScan]
      split <;> exact ih _ _ _

/-- A table with at least one record whose times are bounded has a slot for an
insertion. -/
theorem insertSlot_isSome (hne : c.recs ≠ []) (h : TimesBounded c) :
    ∃ i, c.insertSlot = some i := by
  have hscan : (oldestScan c.recs 0 int64Max none).isSome := by
    cases hrecs : c.recs with
    | nil => exact absurd hrecs hne
    | cons r rs =>
        have hr : r.lastUsed < int64Max := h r (hrecs ▸ List.mem_cons_self)
        rw [oldestScan, if_pos hr]
        exact oldestScan_isSome_of_some rs 1 0 r.lastUsed
  have hslot : c.insertSlot.isSome := by
    unfold StepCache.insertSlot
    split
    · rfl
    · exact hscan
  exact Option.isSome_iff_exists.mp hslot

theorem insertSlot_congr (h : c.recs = c'.recs) : c.insertSlot = c'.insertSlot := by
  rw [StepCache.insertSlot, StepCache.insertSlot, h]

end Coherence

end StepPipeline
