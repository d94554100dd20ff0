import StepPipeline.CacheRuns
import StepPipeline.Library.BoundedMap

/-!
# The filter cache as a bounded map

`step_pm_process` adds to the cache only what it has just missed.  Used like that, under
a positive clock that does not run backwards, the table **is** a bounded map: the array,
its order and the time 0 of an empty slot do not show.

* `Disciplined` — the condition on the calls;
* `TableInvariant` — the keys of the live records are pairwise distinct, and a key just
  missed is not among them;
* `StepCache.HoldsMap` — the map a table holds: its live records, by key;
* `cacheStep_refines` — every call does to the table what `BoundedMap.Step` does to the
  map, with the same answer;
* `cache_refines_bounded_map` — hence every sequence of calls does.

## What the map leaves out

A table says more than a map: where in the array a record lies, what an empty slot still contains,
and which of several records of one key comes first.  None of it shows as long as each key occurs
once among the live records.  That is not a property of the code of `cache.c` but of the way it is
used, hence the condition `Disciplined`, which the dispatcher meets because it adds a key only
right after missing it, and under the same lock.

The map itself comes from `Library.BoundedMap`, which knows of keys with a value and a time and of
a capacity.  Its eviction is a choice, any entry with a least time may go; the table makes it by
the order of its slots.  So the refinement is one of behaviours, not of functions: each call of
the table is one of the steps the map could have taken.
-/

namespace StepPipeline

open LabelledRun BoundedMap

variable {D : ℕ}

/-! ### The map a table holds -/

/-- The records in use.  A time of 0 marks an empty slot, which is why the clock has to be
positive for what follows. -/
def liveRecs (recs : List StepCacheRec) : List StepCacheRec :=
  recs.filter fun r => r.lastUsed ≠ 0

/-- **The map a table holds**: the live records, by key.  This is the simulation relation;
together with `TableInvariant.distinct` it determines the map from the table. -/
def StepCache.HoldsMap (c : StepCache) (M : Store (BitVec 32 × ℕ) ℤ ℤ D) : Prop :=
  ∀ k v t, M.entries k = some (v, t) ↔
    ∃ r ∈ liveRecs c.recs, r.key = k ∧ r.result = v ∧ r.lastUsed = t

section Live

variable {recs before after : List StepCacheRec} {old new r : StepCacheRec}
  {filter : BitVec 32} {handle : ℕ}

theorem mem_liveRecs : r ∈ liveRecs recs ↔ r ∈ recs ∧ r.lastUsed ≠ 0 := by
  simp [liveRecs]

theorem keyed_iff_key :
    r.keyed filter handle = true ↔ r.lastUsed ≠ 0 ∧ r.key = (filter, handle) := by
  rw [keyed_iff, StepCacheRec.key, Prod.mk.injEq]

/-- A lookup misses exactly the keys no live record has. -/
theorem forall_keyed_eq_false_iff :
    (∀ x ∈ recs, x.keyed filter handle = false) ↔
      ∀ x ∈ liveRecs recs, x.key ≠ (filter, handle) := by
  constructor
  · intro h x hx hkey
    obtain ⟨hmem, hlive⟩ := mem_liveRecs.mp hx
    have := keyed_iff_key.mpr ⟨hlive, hkey⟩
    rw [h x hmem] at this
    cases this
  · intro h x hx
    rw [Bool.eq_false_iff]
    intro hkeyed
    obtain ⟨hlive, hkey⟩ := keyed_iff_key.mp hkeyed
    exact h x (mem_liveRecs.mpr ⟨hx, hlive⟩) hkey

/-- A live record among the others, up to the order of the slots. -/
theorem liveRecs_perm_of_live (hlive : old.lastUsed ≠ 0) :
    (liveRecs (before ++ old :: after)).Perm (old :: liveRecs (before ++ after)) := by
  have hperm := (@List.perm_middle _ old before after).filter fun r => r.lastUsed ≠ 0
  rwa [List.filter_cons_of_pos (by simpa using hlive)] at hperm

/-- An empty slot holds nothing. -/
theorem liveRecs_of_empty (hempty : old.lastUsed = 0) :
    liveRecs (before ++ old :: after) = liveRecs (before ++ after) := by
  simp [liveRecs, hempty]

end Live

section HoldsMap

variable {c : StepCache} {M : Store (BitVec 32 × ℕ) ℤ ℤ D}
  {before after : List StepCacheRec} {old new r : StepCacheRec}

/-- The keys of the map are those of the live records. -/
theorem StepCache.HoldsMap.mem_keys (h : c.HoldsMap M) {k : BitVec 32 × ℕ} :
    k ∈ M.keys ↔ ∃ r ∈ liveRecs c.recs, r.key = k := by
  rw [M.mem_keys, Option.isSome_iff_exists]
  constructor
  · rintro ⟨⟨v, t⟩, hentry⟩
    obtain ⟨r, hr, hkey, -, -⟩ := (h k v t).mp hentry
    exact ⟨r, hr, hkey⟩
  · rintro ⟨r, hr, hkey⟩
    exact ⟨_, (h k r.result r.lastUsed).mpr ⟨r, hr, hkey, rfl, rfl⟩⟩

/-- There are as many keys as live records. -/
theorem StepCache.HoldsMap.card_keys (h : c.HoldsMap M)
    (hdistinct : ((liveRecs c.recs).map StepCacheRec.key).Nodup) :
    M.keys.card = (liveRecs c.recs).length := by
  have hkeys : M.keys = ((liveRecs c.recs).map StepCacheRec.key).toFinset := by
    ext k
    rw [h.mem_keys, List.mem_toFinset, List.mem_map]
  rw [hkeys, List.toFinset_card_of_nodup hdistinct, List.length_map]

/-- The wiped table holds the empty map. -/
theorem holdsMap_empty (h : ∀ r ∈ c.recs, r = .zero) :
    c.HoldsMap (.empty : Store (BitVec 32 × ℕ) ℤ ℤ D) := by
  intro k v t
  refine iff_of_false (fun heq => by cases heq) ?_
  rintro ⟨r, hr, -⟩
  obtain ⟨hmem, hlive⟩ := mem_liveRecs.mp hr
  rw [h r hmem] at hlive
  exact hlive rfl

/-- Under another key than that of one live record the map holds what the others say. -/
theorem StepCache.HoldsMap.others (h : c.HoldsMap M) (hrecs : c.recs = before ++ old :: after)
    (hlive : old.lastUsed ≠ 0) {k : BitVec 32 × ℕ} (hk : k ≠ old.key) (v t : ℤ) :
    M.entries k = some (v, t) ↔
      ∃ r ∈ liveRecs (before ++ after), r.key = k ∧ r.result = v ∧ r.lastUsed = t := by
  have hmem : ∀ r, r ∈ liveRecs c.recs ↔ r = old ∨ r ∈ liveRecs (before ++ after) := fun r =>
    hrecs ▸ (liveRecs_perm_of_live hlive).mem_iff.trans List.mem_cons
  rw [h k v t]
  constructor
  · rintro ⟨r, hr, hkey, hrest⟩
    rcases (hmem r).mp hr with rfl | hr
    · exact absurd hkey.symm hk
    · exact ⟨r, hr, hkey, hrest⟩
  · rintro ⟨r, hr, hrest⟩
    exact ⟨r, (hmem r).mpr (Or.inr hr), hrest⟩

/-- **Writing one record writes one entry**, when the other entries are those of the
other live records. -/
theorem holdsMap_write (hlive : new.lastUsed ≠ 0)
    (hfresh : ∀ r ∈ liveRecs (before ++ after), r.key ≠ new.key)
    {entries : BitVec 32 × ℕ → Option (ℤ × ℤ)}
    (hothers : ∀ k, k ≠ new.key → ∀ v t, entries k = some (v, t) ↔
      ∃ r ∈ liveRecs (before ++ after), r.key = k ∧ r.result = v ∧ r.lastUsed = t)
    (k : BitVec 32 × ℕ) (v t : ℤ) :
    Function.update entries new.key (some (new.result, new.lastUsed)) k = some (v, t) ↔
      ∃ r ∈ liveRecs (before ++ new :: after),
        r.key = k ∧ r.result = v ∧ r.lastUsed = t := by
  have hmem : ∀ r, r ∈ liveRecs (before ++ new :: after) ↔
      r = new ∨ r ∈ liveRecs (before ++ after) := fun r =>
    (liveRecs_perm_of_live hlive).mem_iff.trans List.mem_cons
  by_cases hk : k = new.key
  · subst hk
    rw [Function.update_self]
    constructor
    · intro heq
      cases heq
      exact ⟨new, (hmem new).mpr (Or.inl rfl), rfl, rfl, rfl⟩
    · rintro ⟨r, hr, hkey, rfl, rfl⟩
      rcases (hmem r).mp hr with rfl | hr
      · rfl
      · exact absurd hkey (hfresh r hr)
  · rw [Function.update_of_ne hk, hothers k hk v t]
    constructor
    · rintro ⟨r, hr, hrest⟩
      exact ⟨r, (hmem r).mpr (Or.inr hr), hrest⟩
    · rintro ⟨r, hr, hkey, hrest⟩
      rcases (hmem r).mp hr with rfl | hr
      · exact absurd hkey.symm hk
      · exact ⟨r, hr, hkey, hrest⟩

end HoldsMap

/-! ### Calls in the order of the processor manager -/

/-- **The discipline of `step_pm_process`**: an insertion comes right after the lookup of
its key has failed.  The clock is positive, does not run backwards and stays below the
start value of the victim scan. -/
def Disciplined (s : CacheUse) : CacheOp → Prop
  | .clear => True
  | .check _ _ uptime => 0 < uptime ∧ s.now ≤ uptime ∧ uptime < int64Max
  | .add filter handle _ uptime =>
      0 < uptime ∧ s.now ≤ uptime ∧ uptime < int64Max ∧ s.missed = some (filter, handle)

instance (s : CacheUse) : DecidablePred (Disciplined s)
  | .clear => isTrue trivial
  | .check _ _ _ => inferInstanceAs (Decidable (_ ∧ _ ∧ _))
  | .add _ _ _ _ => inferInstanceAs (Decidable (_ ∧ _ ∧ _ ∧ _))

/-- What holds of the table as long as the calls are disciplined.  `missed` connects one call with
the next: it is what makes an insertion right after a miss harmless. -/
structure TableInvariant (P : Platform) (s : CacheUse) : Prop where
  clock : ClockInvariant P s
  below : s.now < int64Max
  distinct : ((liveRecs s.cache.recs).map StepCacheRec.key).Nodup
  missed : ∀ k, s.missed = some k → ∀ r ∈ liveRecs s.cache.recs, r.key ≠ k

section Invariant

variable {P : Platform} {s s' : CacheUse} {op : CacheOp}
  {before after : List StepCacheRec} {old new : StepCacheRec}

theorem Disciplined.clock (h : Disciplined s op) : ClockAdvances s op := by
  cases op with
  | clear => trivial
  | check _ _ _ => exact h.2.1
  | add _ _ _ _ => exact h.2.1

theorem liveRecs_of_zero {recs : List StepCacheRec} (h : ∀ r ∈ recs, r = .zero) :
    liveRecs recs = [] := by
  rw [liveRecs, List.filter_eq_nil_iff]
  intro r hr
  rw [h r hr]
  decide

theorem tableInvariant_init (P : Platform) : TableInvariant P (.init P) := by
  have hlive : liveRecs (CacheUse.init P).cache.recs = [] :=
    liveRecs_of_zero fun _ hr => (List.mem_replicate.mp hr).2
  have hbelow : (0 : ℤ) < int64Max := by decide
  refine ⟨clockInvariant_init P, hbelow, ?_, fun k hk => by cases hk⟩
  rw [hlive]
  exact List.nodup_nil

theorem TableInvariant.timesBounded (h : TableInvariant P s) : TimesBounded s.cache :=
  fun r hr => (h.clock.times r hr).2.trans_lt h.below

/-- A live record has another key than the live records around it. -/
theorem TableInvariant.fresh (h : TableInvariant P s)
    (hrecs : s.cache.recs = before ++ old :: after) (hlive : old.lastUsed ≠ 0) :
    ∀ r ∈ liveRecs (before ++ after), r.key ≠ old.key := by
  have hdistinct := h.distinct
  rw [hrecs, ((liveRecs_perm_of_live hlive).map _).nodup_iff, List.map_cons,
    List.nodup_cons, List.mem_map] at hdistinct
  exact fun r hr hkey => hdistinct.1 ⟨r, hr, hkey⟩

/-- The other live records are live records of the table. -/
theorem mem_liveRecs_of_others {r : StepCacheRec} (hr : r ∈ liveRecs (before ++ after)) :
    r ∈ liveRecs (before ++ old :: after) := by
  obtain ⟨hmem, hlive⟩ := mem_liveRecs.mp hr
  refine mem_liveRecs.mpr ⟨?_, hlive⟩
  rcases List.mem_append.mp hmem with hmem | hmem
  · exact List.mem_append_left _ hmem
  · exact List.mem_append_right _ (List.mem_cons_of_mem old hmem)

/-- Overwriting one record by one with a fresh key keeps the keys distinct. -/
theorem TableInvariant.distinct_set (h : TableInvariant P s)
    (hrecs : s.cache.recs = before ++ old :: after) (hlive : new.lastUsed ≠ 0)
    (hfresh : ∀ r ∈ liveRecs (before ++ after), r.key ≠ new.key) :
    ((liveRecs (before ++ new :: after)).map StepCacheRec.key).Nodup := by
  have hothers : ((liveRecs (before ++ after)).map StepCacheRec.key).Nodup := by
    refine h.distinct.sublist (List.Sublist.map _ ?_)
    rw [hrecs]
    exact ((List.sublist_cons_self old after).append_left before).filter _
  rw [((liveRecs_perm_of_live hlive).map _).nodup_iff, List.map_cons, List.nodup_cons,
    List.mem_map]
  exact ⟨fun ⟨r, hr, hkey⟩ => hfresh r hr hkey, hothers⟩

/-- **The step lemma of the table.** -/
theorem cacheStep_tableInvariant (h : TableInvariant P s) (hop : Disciplined s op)
    (hstep : cacheStep P s op = some s') : TableInvariant P s' := by
  have hclock := cacheStep_clockInvariant h.clock hop.clock hstep
  cases cacheStep_move hstep with
  | clear =>
      refine ⟨hclock, h.below, ?_, fun k hk => by cases hk⟩
      have hlive : liveRecs (stepCacheClear P s.cache).recs = [] :=
        liveRecs_of_zero fun _ hr => (List.mem_replicate.mp hr).2
      rw [hlive]
      exact List.nodup_nil
  | @hit filter handle uptime before after r c hrecs hkey hbefore hcache =>
      obtain ⟨hpos, -, hmax⟩ := hop
      refine ⟨hclock, hmax, ?_, fun k hk => by cases hk⟩
      have hfresh := h.fresh hrecs (keyed_iff_key.mp hkey).1
      rw [hcache]
      exact h.distinct_set hrecs hpos.ne' hfresh
  | @miss filter handle uptime c hnone hcache =>
      refine ⟨hclock, hop.2.2, ?_, fun k hk => ?_⟩
      · rw [hcache]
        exact h.distinct
      · obtain rfl := Option.some.inj hk
        rw [hcache]
        exact forall_keyed_eq_false_iff.mp hnone
  | @add filter handle result uptime before after old c hrecs hslot hcache =>
      obtain ⟨hpos, -, hmax, hmissed⟩ := hop
      refine ⟨hclock, hmax, ?_, fun k hk => by cases hk⟩
      rw [hcache]
      refine h.distinct_set hrecs hpos.ne' fun r hr => ?_
      exact h.missed _ hmissed r (hrecs ▸ mem_liveRecs_of_others hr)

/-- A disciplined call is carried out. -/
theorem TableInvariant.enabled (h : TableInvariant P s) (op : CacheOp) :
    ∃ s', cacheStep P s op = some s' := by
  cases op with
  | clear => exact ⟨_, rfl⟩
  | check _ _ _ => exact ⟨_, rfl⟩
  | add filter handle result uptime =>
      obtain ⟨i, hi⟩ := insertSlot_isSome h.clock.recs_ne_nil h.timesBounded
      simp only [cacheStep, stepCacheAdd, hi]
      exact ⟨_, rfl⟩

/-- **The record a disciplined insertion overwrites**: an empty one, or, in a full table,
one with the least time. -/
theorem TableInvariant.victim (h : TableInvariant P s)
    (hrecs : s.cache.recs = before ++ old :: after)
    (hslot : s.cache.insertSlot = some before.length) :
    old.lastUsed = 0 ∨
      ∀ r ∈ s.cache.recs, r.lastUsed ≠ 0 ∧ old.lastUsed ≤ r.lastUsed := by
  obtain ⟨before', old', after', hrecs', hleast⟩ := exists_leastFirst h.clock.recs_ne_nil
  have hmem : old' ∈ s.cache.recs := hrecs' ▸ by simp
  have hslot' := insertSlot_eq hrecs' hleast (h.clock.times old' hmem).1
    (h.timesBounded old' hmem)
  have hlen : before.length = before'.length := Option.some.inj (hslot.symm.trans hslot')
  obtain rfl : old = old' := by
    have heq := (List.append_inj (hrecs.symm.trans hrecs') hlen).2
    exact List.head_eq_of_cons_eq heq
  by_cases hzero : old.lastUsed = 0
  · exact Or.inl hzero
  · refine Or.inr fun r hr => ?_
    have hle : old.lastUsed ≤ r.lastUsed := hleast.le (hrecs' ▸ hr)
    have hnonneg := (h.clock.times old hmem).1
    exact ⟨by omega, hle⟩

end Invariant

/-! ### One call on both levels -/

/-- The call of the map. -/
def CacheOp.toOp : CacheOp → Op (BitVec 32 × ℕ) ℤ ℤ
  | .clear => .clear
  | .check filter handle uptime => .check (filter, handle) uptime
  | .add filter handle result uptime => .add (filter, handle) result uptime

/-- What a lookup answers: `*result` on a match. -/
def CacheUse.answer (s : CacheUse) : CacheOp → Option ℤ
  | .check filter handle uptime =>
      let r := stepCacheCheck s.cache filter handle uptime
      if r.1 then some r.2.1 else none
  | _ => none

/-- What happens to the keys: an insertion drops the live record it overwrites.  The list of all
changes of a run is its history, from which what a lookup must answer can be told without looking
at the table. -/
def CacheUse.changes (s : CacheUse) : CacheOp → List (Change (BitVec 32 × ℕ) ℤ)
  | .clear => [.cleared]
  | .check _ _ _ => []
  | .add filter handle result _ =>
      match s.cache.insertSlot with
      | none => []
      | some i =>
          let old := s.cache.recs.getD i .zero
          if old.lastUsed = 0 then [.added (filter, handle) result]
          else [.evicted old.key, .added (filter, handle) result]

/-- **What a call keeps of the table.** A hit writes the time of one record, a miss nothing, and
an insertion overwrites one record: an empty one, or, where there is none, one with the least
time.  The records around it are the same, in the same slots. -/
def KeepsRecords (s : CacheUse) : CacheOp → Prop
  | .clear => True
  | .check filter handle uptime =>
      let r := stepCacheCheck s.cache filter handle uptime
      (r.1 = true → ∃ before x after, s.cache.recs = before ++ x :: after ∧
        x.keyed filter handle = true ∧
        r.2.2.recs = before ++ { x with lastUsed := uptime } :: after) ∧
      (r.1 = false → r.2.2.recs = s.cache.recs)
  | .add filter handle result uptime =>
      ∃ c before old after,
        stepCacheAdd s.cache filter handle result uptime StepCacheRec.zero.madeFor = .ok c ∧
        s.cache.recs = before ++ old :: after ∧
        c.recs = before ++
          ⟨filter, handle, result, uptime, StepCacheRec.zero.madeFor⟩ :: after ∧
        (old.lastUsed = 0 ∨
          ∀ r ∈ s.cache.recs, r.lastUsed ≠ 0 ∧ old.lastUsed ≤ r.lastUsed)

section Refinement

variable {P : Platform} {s s' : CacheUse} {op : CacheOp}
  {M : Store (BitVec 32 × ℕ) ℤ ℤ P.cacheDepth} {before after : List StepCacheRec}
  {old : StepCacheRec} {filter : BitVec 32} {handle : ℕ} {result uptime : ℤ}

theorem keepsRecords (h : TableInvariant P s) (op : CacheOp) : KeepsRecords s op := by
  cases op with
  | clear => trivial
  | check filter handle uptime =>
      rcases keyed_cases s.cache.recs filter handle with
        ⟨before, r, after, hrecs, hkey, hbefore⟩ | hnone
      · obtain ⟨hhit, -, hcache⟩ := stepCacheCheck_split uptime hrecs hkey hbefore
        refine ⟨fun _ => ⟨before, r, after, hrecs, hkey, hcache⟩, fun hmiss => ?_⟩
        rw [hhit] at hmiss
        cases hmiss
      · obtain ⟨hmiss, -, hcache⟩ := stepCacheCheck_none uptime hnone
        refine ⟨fun hhit => ?_, fun _ => hcache⟩
        rw [hmiss] at hhit
        cases hhit
  | add filter handle result uptime =>
      obtain ⟨s', hstep⟩ := h.enabled (.add filter handle result uptime)
      cases cacheStep_move hstep with
      | @add _ _ _ _ before after old c hrecs hslot hcache =>
          refine ⟨_, before, old, after, by rw [stepCacheAdd, hslot], hrecs,
            set_split hrecs _, h.victim hrecs hslot⟩

/-- A key that was just missed is that of no live record. -/
theorem TableInvariant.absent (h : TableInvariant P s) (hmap : s.cache.HoldsMap M)
    (hop : Disciplined s (.add filter handle result uptime))
    (hrecs : s.cache.recs = before ++ old :: after) :
    (filter, handle) ∉ M.keys ∧
      ∀ r ∈ liveRecs (before ++ after), r.key ≠ (filter, handle) := by
  have hnotlive := h.missed _ hop.2.2.2
  refine ⟨?_, fun r hr => hnotlive r (hrecs ▸ mem_liveRecs_of_others hr)⟩
  rw [hmap.mem_keys]
  rintro ⟨r, hr, hkey⟩
  exact hnotlive r hr hkey

theorem getD_of_split (hrecs : s.cache.recs = before ++ old :: after) :
    s.cache.recs.getD before.length .zero = old := by
  simp [hrecs, List.getD_eq_getElem?_getD]

/-- A lookup that hits touches the key. -/
theorem TableInvariant.refines_hit (h : TableInvariant P s) (hmap : s.cache.HoldsMap M)
    (hpos : 0 < uptime) (hrecs : s.cache.recs = before ++ old :: after)
    (hkey : old.keyed filter handle = true)
    (hbefore : ∀ x ∈ before, x.keyed filter handle = false) {c : StepCache}
    (hcache : c.recs = before ++ { old with lastUsed := uptime } :: after) :
    ∃ M', Step M (.check (filter, handle) uptime) (s.answer (.check filter handle uptime)) []
      M' ∧ c.HoldsMap M' := by
  obtain ⟨hlive, hold⟩ := keyed_iff_key.mp hkey
  have hmem : old ∈ liveRecs s.cache.recs := mem_liveRecs.mpr ⟨hrecs ▸ by simp, hlive⟩
  have hheld : (filter, handle) ∈ M.keys := hmap.mem_keys.mpr ⟨old, hmem, hold⟩
  have hentry : M.entries (filter, handle) = some (old.result, old.lastUsed) :=
    (hmap _ _ _).mpr ⟨old, hmem, hold, rfl, rfl⟩
  have hanswer : s.answer (.check filter handle uptime) = some old.result := by
    obtain ⟨hhit, hresult, -⟩ := stepCacheCheck_split uptime hrecs hkey hbefore
    simp only [CacheUse.answer, hhit, hresult, if_true]
  have hfresh := h.fresh hrecs hlive
  refine ⟨M.touch (filter, handle) old.result uptime hheld, hanswer ▸ .hit hheld hentry, ?_⟩
  intro k v t
  have hwrite := @holdsMap_write before after { old with lastUsed := uptime } hpos.ne'
    hfresh M.entries (fun _ hk => hmap.others hrecs hlive hk) k v t
  rw [show StepCacheRec.key { old with lastUsed := uptime } = (filter, handle) from hold]
    at hwrite
  rw [hcache]
  exact hwrite

/-- An insertion into an empty slot adds the key. -/
theorem TableInvariant.refines_add (h : TableInvariant P s) (hmap : s.cache.HoldsMap M)
    (hop : Disciplined s (.add filter handle result uptime))
    (hrecs : s.cache.recs = before ++ old :: after)
    (hslot : s.cache.insertSlot = some before.length) (hempty : old.lastUsed = 0)
    {c : StepCache} (hcache : c.recs = before ++
      ⟨filter, handle, result, uptime, StepCacheRec.zero.madeFor⟩ :: after) :
    ∃ M', Step M (.add (filter, handle) result uptime) none
      (s.changes (.add filter handle result uptime)) M' ∧ c.HoldsMap M' := by
  obtain ⟨habsent, hfresh⟩ := h.absent hmap hop hrecs
  have hothers : liveRecs s.cache.recs = liveRecs (before ++ after) :=
    hrecs ▸ liveRecs_of_empty hempty
  have hroom : M.keys.card < P.cacheDepth := by
    have hlength : before.length + after.length + 1 = P.cacheDepth := by
      rw [← h.clock.length, hrecs]
      simp [Nat.add_assoc]
    have hle : (liveRecs (before ++ after)).length ≤ (before ++ after).length :=
      List.length_filter_le _ _
    rw [List.length_append] at hle
    rw [hmap.card_keys h.distinct, hothers]
    omega
  have hchanges : s.changes (.add filter handle result uptime) =
      [.added (filter, handle) result] := by
    simp only [CacheUse.changes, hslot, getD_of_split hrecs, hempty, if_true]
  refine ⟨_, hchanges ▸ Step.add habsent hroom, fun k v t => ?_⟩
  rw [hcache]
  refine @holdsMap_write before after
    ⟨filter, handle, result, uptime, StepCacheRec.zero.madeFor⟩ hop.1.ne' hfresh M.entries
    (fun k' _ v' t' => ?_) k v t
  rw [hmap k' v' t', hothers]

/-- An insertion into a full table drops the key of the record it overwrites, which is one
with the least time. -/
theorem TableInvariant.refines_evict (h : TableInvariant P s) (hmap : s.cache.HoldsMap M)
    (hop : Disciplined s (.add filter handle result uptime))
    (hrecs : s.cache.recs = before ++ old :: after)
    (hslot : s.cache.insertSlot = some before.length) (hlive : old.lastUsed ≠ 0)
    {c : StepCache} (hcache : c.recs = before ++
      ⟨filter, handle, result, uptime, StepCacheRec.zero.madeFor⟩ :: after) :
    ∃ M', Step M (.add (filter, handle) result uptime) none
      (s.changes (.add filter handle result uptime)) M' ∧ c.HoldsMap M' := by
  obtain ⟨habsent, hfresh⟩ := h.absent hmap hop hrecs
  have hleast := (h.victim hrecs hslot).resolve_left hlive
  have hold : old ∈ liveRecs s.cache.recs := mem_liveRecs.mpr ⟨hrecs ▸ by simp, hlive⟩
  have hfull : M.keys.card = P.cacheDepth := by
    rw [hmap.card_keys h.distinct, ← h.clock.length, liveRecs,
      List.length_filter_eq_length_iff]
    exact fun r hr => by simpa using (hleast r hr).1
  have hvictim : M.LeastUsed old.key := by
    refine ⟨hmap.mem_keys.mpr ⟨old, hold, rfl⟩, fun k v t v' t' hentry hentry' => ?_⟩
    rw [(hmap _ _ _).mpr ⟨old, hold, rfl, rfl, rfl⟩] at hentry
    cases hentry
    obtain ⟨r, hr, -, -, rfl⟩ := (hmap _ _ _).mp hentry'
    exact (hleast r (mem_liveRecs.mp hr).1).2
  have hchanges : s.changes (.add filter handle result uptime) =
      [.evicted old.key, .added (filter, handle) result] := by
    simp only [CacheUse.changes, hslot, getD_of_split hrecs, hlive, if_false]
  refine ⟨_, hchanges ▸ Step.evict habsent hfull hvictim, fun k v t => ?_⟩
  rw [hcache]
  refine @holdsMap_write before after
    ⟨filter, handle, result, uptime, StepCacheRec.zero.madeFor⟩ hop.1.ne' hfresh
    (Function.update M.entries old.key none) (fun k' _ v' t' => ?_) k v t
  by_cases hkold : k' = old.key
  · -- the key that is dropped was that of no other live record
    subst hkold
    rw [Function.update_self]
    refine iff_of_false (fun heq => by cases heq) ?_
    rintro ⟨x, hx, hxkey, -⟩
    exact h.fresh hrecs hlive x hx hxkey
  · rw [Function.update_of_ne hkold]
    exact hmap.others hrecs hlive hkold v' t'

/-- **Every call is a step of the map**, with the same answer and the same changes. -/
theorem cacheStep_refines (h : TableInvariant P s) (hmap : s.cache.HoldsMap M)
    (hop : Disciplined s op) (hstep : cacheStep P s op = some s') :
    ∃ M', Step M op.toOp (s.answer op) (s.changes op) M' ∧ s'.cache.HoldsMap M' := by
  cases cacheStep_move hstep with
  | clear =>
      exact ⟨.empty, .clear, holdsMap_empty fun _ hr => (List.mem_replicate.mp hr).2⟩
  | @hit filter handle uptime before after r c hrecs hkey hbefore hcache =>
      exact h.refines_hit hmap hop.1 hrecs hkey hbefore hcache
  | @miss filter handle uptime c hnone hcache =>
      have habsent : (filter, handle) ∉ M.keys := by
        rw [hmap.mem_keys]
        rintro ⟨r, hr, hkey⟩
        exact forall_keyed_eq_false_iff.mp hnone r hr hkey
      have hanswer : s.answer (.check filter handle uptime) = none := by
        simp [CacheUse.answer, (stepCacheCheck_none uptime hnone).1]
      refine ⟨M, hanswer ▸ .miss habsent, fun k v t => ?_⟩
      rw [hcache]
      exact hmap k v t
  | @add filter handle result uptime before after old c hrecs hslot hcache =>
      by_cases hempty : old.lastUsed = 0
      · exact h.refines_add hmap hop hrecs hslot hempty hcache
      · exact h.refines_evict hmap hop hrecs hslot hempty hcache

/-- A lookup finds what the map holds. -/
theorem stepCacheCheck_iff (hmap : s.cache.HoldsMap M)
    (filter : BitVec 32) (handle : ℕ) (uptime r : ℤ)
    (hdistinct : ((liveRecs s.cache.recs).map StepCacheRec.key).Nodup) :
    (stepCacheCheck s.cache filter handle uptime).1 = true ∧
        (stepCacheCheck s.cache filter handle uptime).2.1 = r ↔
      ∃ t, M.entries (filter, handle) = some (r, t) := by
  rcases keyed_cases s.cache.recs filter handle with
    ⟨before, x, after, hrecs, hkey, hbefore⟩ | hnone
  · obtain ⟨hhit, hresult, -⟩ := stepCacheCheck_split uptime hrecs hkey hbefore
    obtain ⟨hlive, hxkey⟩ := keyed_iff_key.mp hkey
    have hx : x ∈ liveRecs s.cache.recs := mem_liveRecs.mpr ⟨hrecs ▸ by simp, hlive⟩
    rw [hhit, hresult, eq_self_iff_true, true_and]
    constructor
    · rintro rfl
      exact ⟨x.lastUsed, (hmap _ _ _).mpr ⟨x, hx, hxkey, rfl, rfl⟩⟩
    · rintro ⟨t, hentry⟩
      obtain ⟨y, hy, hykey, rfl, -⟩ := (hmap _ _ _).mp hentry
      rw [List.inj_on_of_nodup_map hdistinct hx hy (hxkey.trans hykey.symm)]
  · obtain ⟨hmiss, -, -⟩ := stepCacheCheck_none uptime hnone
    rw [hmiss]
    refine iff_of_false (fun h => by cases h.1) ?_
    rintro ⟨t, hentry⟩
    obtain ⟨y, hy, hykey, -, -⟩ := (hmap _ _ _).mp hentry
    exact forall_keyed_eq_false_iff.mp hnone y hy hykey

/-- …and 0 where the map holds nothing. -/
theorem stepCacheCheck_miss_zero (c : StepCache) (filter : BitVec 32) (handle : ℕ)
    (uptime : ℤ) (hmiss : (stepCacheCheck c filter handle uptime).1 = false) :
    (stepCacheCheck c filter handle uptime).2.1 = 0 := by
  rcases keyed_cases c.recs filter handle with
    ⟨before, x, after, hrecs, hkey, hbefore⟩ | hnone
  · rw [(stepCacheCheck_split uptime hrecs hkey hbefore).1] at hmiss
    cases hmiss
  · exact (stepCacheCheck_none uptime hnone).2.1

end Refinement

/-! ### Whole sequences of calls -/

/-- **The table acts as a bounded map**: after the calls `ops` the table `s.cache` holds
the map `M` that the same calls lead to, with the same answers and the same changes. -/
structure ActsAsMap (P : Platform) (ops : List CacheOp) (s : CacheUse)
    (M : Store (BitVec 32 × ℕ) ℤ ℤ P.cacheDepth) : Prop where
  run : Run .empty (ops.map CacheOp.toOp)
    (trace (cacheStep P) (fun s op => [s.answer op]) (.init P) ops)
    (trace (cacheStep P) CacheUse.changes (.init P) ops) M
  holds : s.cache.HoldsMap M
  card_le : (liveRecs s.cache.recs).length ≤ P.cacheDepth
  distinct : ((liveRecs s.cache.recs).map StepCacheRec.key).Nodup
  /-- A lookup finds exactly the keys added since and not dropped, with the result they
  were added with last. -/
  check_iff : ∀ filter handle uptime r,
    (stepCacheCheck s.cache filter handle uptime).1 = true ∧
        (stepCacheCheck s.cache filter handle uptime).2.1 = r ↔
      Remembers (trace (cacheStep P) CacheUse.changes (.init P) ops) (filter, handle) r
  check_miss : ∀ filter handle uptime,
    (stepCacheCheck s.cache filter handle uptime).1 = false →
      (stepCacheCheck s.cache filter handle uptime).2.1 = 0

section Runs

variable {P : Platform} {s : CacheUse}

/-- **The run lemma of the refinement.** -/
theorem run_refines {ops : List CacheOp} {M : Store (BitVec 32 × ℕ) ℤ ℤ P.cacheDepth}
    (h : TableInvariant P s) (hmap : s.cache.HoldsMap M)
    (hops : Meets (cacheStep P) Disciplined s ops) :
    ∃ s' M', run (cacheStep P) s ops = some s' ∧ TableInvariant P s' ∧
      Run M (ops.map CacheOp.toOp) (trace (cacheStep P) (fun s op => [s.answer op]) s ops)
        (trace (cacheStep P) CacheUse.changes s ops) M' ∧ s'.cache.HoldsMap M' := by
  induction ops generalizing s M with
  | nil => exact ⟨s, M, rfl, h, .nil M, hmap⟩
  | cons op ops ih =>
      obtain ⟨s₁, hstep⟩ := h.enabled op
      obtain ⟨M₁, hone, hmap₁⟩ := cacheStep_refines h hmap hops.1 hstep
      obtain ⟨s', M', hrun, h', hrest, hmap'⟩ :=
        ih (cacheStep_tableInvariant h hops.1 hstep) hmap₁ (hops.2 s₁ hstep)
      refine ⟨s', M', (run_cons_eq_some _).mpr ⟨s₁, hstep, hrun⟩, h', ?_, hmap'⟩
      simpa [trace, hstep] using Run.cons hone hrest

/-- **The cache refines a bounded map.**  For every depth and every disciplined sequence
of calls, the calls are carried out, the table acts as the map, and every call keeps the
records it has no business with. -/
theorem cache_refines_bounded_map (P : Platform) {ops : List CacheOp}
    (hops : Meets (cacheStep P) Disciplined (.init P) ops) :
    (∃ s M, run (cacheStep P) (.init P) ops = some s ∧ ActsAsMap P ops s M) ∧
      Meets (cacheStep P) KeepsRecords (.init P) ops := by
  have hinit := tableInvariant_init P
  have hempty : (CacheUse.init P).cache.HoldsMap
      (.empty : Store (BitVec 32 × ℕ) ℤ ℤ P.cacheDepth) :=
    holdsMap_empty fun _ hr => (List.mem_replicate.mp hr).2
  constructor
  · obtain ⟨s, M, hrun, hinv, hmaprun, hmap⟩ := run_refines hinit hempty hops
    refine ⟨s, M, hrun, ⟨hmaprun, hmap, ?_, hinv.distinct, fun filter handle uptime r => ?_,
      stepCacheCheck_miss_zero s.cache⟩⟩
    · rw [← hinv.clock.length]
      exact List.length_filter_le _ _
    · rw [stepCacheCheck_iff hmap filter handle uptime r hinv.distinct]
      exact hmaprun.entries_iff _ _
  · exact meets_of_invariant (fun _ _ _ hI hop hstep => cacheStep_tableInvariant hI hop hstep)
      (fun _ op hI _ => keepsRecords hI op) hinit hops

/-- Three keys in a table of two records. -/
theorem cache_refines_bounded_map_three :
    let ops : List CacheOp := [.check 1#32 0 5, .add 1#32 0 1 5, .check 2#32 0 6,
      .add 2#32 0 0 6, .check 3#32 0 6, .add 3#32 0 1 7]
    (∃ s M, run (cacheStep .twoRecords) (.init .twoRecords) ops = some s ∧
        ActsAsMap .twoRecords ops s M) ∧
      Meets (cacheStep .twoRecords) KeepsRecords (.init .twoRecords) ops :=
  cache_refines_bounded_map .twoRecords (by decide)

end Runs

end StepPipeline
