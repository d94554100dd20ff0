import StepPipeline.SamplePool

/-!
# New measurements

What a producer finds in a measurement that `step_sp_alloc` has just returned.

* **Where the payload is.**  The address of the payload is computed by adding
  `sizeof(struct step_measurement)` to a pointer to measurements, so it lies that many
  *measurements* behind the start of the block.  `payloadsContained_iff`: the payloads
  of the live measurements lie in their blocks **exactly** as long as nobody asks for a
  payload.
* **What the header holds.**  `memset` clears the first bytes of the measurement, and
  these belong to the work item in front of the header.  `freshMes_iff`: in a run all
  measurements returned are fresh **exactly** if the bytes in question were 0 at each
  allocation, and after two runs an allocation gives equal measurements exactly if the
  runs left these bytes equal.

## Why runs and not single calls

Both properties are about what an allocation finds.  The pointer arithmetic goes wrong for every
block, wherever it lies, so its condition is on the labels alone.  Whether a header is fresh
depends on the bytes that were in the block before, which the heap, an earlier owner or a stray
`memset` may have left there; so that condition is on the state before each allocation, and names
the bytes.  They are those of the header, the length apart, that lie behind the first twelve bytes
of the measurement (`PoolBuild.Uncleared`); where the work item in front takes twelve bytes or
more, these are all of them.

That two runs agree on a new measurement exactly if they agree on these bytes is the form in which
"no data of an earlier use shows through" can be said without naming an earlier use.
-/

namespace StepPipeline

open ByteMemory LabelledRun

/-! ### Where the payload is -/

/-- The payload bytes of a live measurement lie in its block, behind the structure.  It is asked
of the pointer as it stands in memory, which a producer may have changed. -/
def LiveMes.Contained (B : PoolBuild) (m : Memory) (b : LiveMes) : Prop :=
  ∀ i < b.sz.toNat, b.mes + B.size ≤ readPayload B m b.mes + i ∧
    readPayload B m b.mes + i < b.mes + B.size + b.sz.toNat

instance (B : PoolBuild) (m : Memory) (b : LiveMes) : Decidable (b.Contained B m) :=
  inferInstanceAs (Decidable (∀ i < b.sz.toNat, _))

/-- **Payload containment**, for all live measurements. -/
def PayloadsContained (B : PoolBuild) (s : Pool) : Prop := ∀ b ∈ s.live, b.Contained B s.mem

/-- An allocation writes nothing outside the block it returns.  The stray `memset` may hit a block
that somebody else owns, the links of the heap, or nothing at all; here it is enough that it lies
elsewhere. -/
def WritesOwnBlock (B : PoolBuild) (s : Pool) : PoolLabel → Prop
  | .alloc t sz (some mes) => ∀ s', poolStep B s (.alloc t sz (some mes)) = some s' →
      ∀ x, x < mes ∨ mes + B.size + sz.toNat ≤ x → s'.mem x = s.mem x
  | _ => True

/-- The label is not a successful allocation with a payload. -/
def PoolLabel.WithoutPayload : PoolLabel → Prop
  | .alloc _ sz (some _) => sz = 0
  | _ => True

section Containment

variable {B : PoolBuild} {s s' : Pool} {label : PoolLabel} {labels : List PoolLabel}

/-- A measurement without a payload has it where it should be. -/
theorem LiveMes.contained_of_zero {m : Memory} {b : LiveMes} (h : b.sz = 0) :
    b.Contained B m := by
  intro i hi
  rw [h] at hi
  exact absurd hi (Nat.not_lt_zero i)

/-- **A new measurement with a payload has it somewhere else.** -/
theorem not_contained_initMes {m : Memory} {b : LiveMes}
    (hfit : b.mes + B.size ≤ 256 ^ B.ptrSize) (hsz : b.sz ≠ 0) :
    ¬b.Contained B (initMes B m b.mes b.sz) := by
  intro hcontained
  have hpos : 0 < b.sz.toNat := by
    rw [Nat.pos_iff_ne_zero]
    exact fun h => hsz (BitVec.eq_of_toNat_eq h)
  have hfirst := (hcontained 0 hpos).1
  have hlast := (hcontained (b.sz.toNat - 1) (by omega)).2
  rw [initMes_payload hfit] at hfirst hlast
  rcases payloadOf_apart hfit hsz with hbelow | habove
  · omega
  · omega

/-- A block that is handed out lies in the address space. -/
theorem Pool.HandsOut.fit {sz : BitVec 16} {mes : ℕ} (h : s.HandsOut B sz mes) :
    mes + B.size ≤ 256 ^ B.ptrSize := by
  obtain ⟨-, hspace, -⟩ := h
  omega

/-- As long as nobody asks for a payload, no live measurement has one. -/
theorem poolStep_withoutPayload (h : ∀ b ∈ s.live, b.sz = 0)
    (hstep : poolStep B s label = some s') (hlabel : label.WithoutPayload) :
    ∀ b ∈ s'.live, b.sz = 0 := by
  cases poolStep_move hstep with
  | alloc _ _ =>
      intro b hb
      rcases List.mem_cons.mp hb with rfl | hb
      · exact hlabel
      · exact h b hb
  | fail _ => exact h
  | @free _ before after b _ hlive _ =>
      intro c hc
      refine h c ?_
      rw [hlive]
      exact List.mem_append.mpr ((List.mem_append.mp hc).imp_right (List.mem_cons_of_mem b))
  | write => exact h

/-- …and once somebody does, the payloads are not contained. -/
theorem withoutPayload_of_contained (hstep : poolStep B s label = some s')
    (h : PayloadsContained B s') : label.WithoutPayload := by
  cases poolStep_move hstep with
  | @alloc _ sz mes _ hout =>
      have hnew := h ⟨mes, sz, blockLen B sz.toNat⟩ List.mem_cons_self
      by_contra hsz
      exact not_contained_initMes (b := ⟨mes, sz, blockLen B sz.toNat⟩) hout.fit hsz hnew
  | fail _ => trivial
  | free _ _ _ => trivial
  | write => trivial

theorem writesOwnBlock_of_withoutPayload (B : PoolBuild) (s : Pool)
    (h : label.WithoutPayload) : WritesOwnBlock B s label := by
  cases label with
  | free _ _ => trivial
  | write _ _ => trivial
  | alloc t sz heap =>
      cases heap with
      | none => trivial
      | some mes =>
          obtain rfl : sz = 0 := h
          intro s' hstep x hx
          cases poolStep_move hstep with
          | alloc _ _ =>
              have hnone : payloadOf B mes 0 = 0 := if_pos rfl
              refine initMes_outside ?_ (Or.inr ?_)
              · simpa using hx
              · rw [hnone]
                exact Nat.zero_le x

/-- **Payload containment**: in a run the payloads of all live measurements lie in
their own blocks at all times, and no allocation writes anywhere else, exactly when no
successful allocation asks for a payload. -/
theorem payloadsContained_iff (hrun : run (poolStep B) Pool.init labels = some s) :
    (Always (poolStep B) (PayloadsContained B) Pool.init labels ∧
      Meets (poolStep B) (WritesOwnBlock B) Pool.init labels) ↔
      ∀ label ∈ labels, label.WithoutPayload := by
  have hinit : ∀ b ∈ Pool.init.live, b.sz = 0 := fun b hb => (by cases hb)
  have hcontained : Always (poolStep B) (PayloadsContained B) Pool.init labels ↔
      Meets (poolStep B) (fun _ label => label.WithoutPayload) Pool.init labels :=
    always_iff_meets (I := fun s : Pool => ∀ b ∈ s.live, b.sz = 0)
      (fun _ h b hb => LiveMes.contained_of_zero (h b hb))
      (fun _ _ _ h hstep hlabel => poolStep_withoutPayload h hstep hlabel)
      (fun _ _ _ _ hstep h => withoutPayload_of_contained hstep h) hinit hrun
  rw [hcontained, meets_label_iff hrun]
  refine and_iff_left_of_imp fun hlabels => meets_of_forall_mem fun label hmem s => ?_
  exact writesOwnBlock_of_withoutPayload B s (hlabels label hmem)

end Containment

/-- **A payload outside its block**: the block of a measurement with a payload of 4
bytes ends at 1064, and its payload starts at 2320. -/
theorem payload_outside_block :
    ∃ s, run (poolStep .words32) Pool.init [.alloc 1 4 (some 1024)] = some s ∧
      readPayload .words32 s.mem 1024 = 2320 ∧ ¬PayloadsContained .words32 s :=
  ⟨_, rfl, by decide, fun h => absurd (h ⟨1024, 4, 48⟩ List.mem_cons_self) (by decide)⟩

/-- A measurement without a payload. -/
theorem payloadsContained_iff_empty :
    Always (poolStep .words32) (PayloadsContained .words32) Pool.init
      [.alloc 1 0 (some 1024), .write 1044 7, .free 1 1024] := by
  have hrun : run (poolStep .words32) Pool.init
      [.alloc 1 0 (some 1024), .write 1044 7, .free 1 1024] = some _ := rfl
  exact ((payloadsContained_iff hrun).mpr (by simp [PoolLabel.WithoutPayload])).1

/-! ### What the header holds -/

/-- The default state of a header: everything 0 but the length. -/
def StepMesHeader.initial (sz : BitVec 16) : StepMesHeader := ⟨0, 0, sz.setWidth 32⟩

/-- **A fresh measurement** carries nothing over.  The payload is asked for where the pointer
leads, so that this is about the contents and the other half of the module about the place. -/
structure FreshMes (B : PoolBuild) (m : Memory) (mes : ℕ) (sz : BitVec 16) : Prop where
  header : readHeader B m mes = .initial sz
  payload : ∀ i < sz.toNat, m (readPayload B m mes + i) = 0
  freeAfterUse : m (mes + B.freeAfterUse) = 1

/-- Two memories hold the same measurement, its header and its payload, at `mes`. -/
def SameMes (B : PoolBuild) (m m' : Memory) (mes : ℕ) (sz : BitVec 16) : Prop :=
  readHeader B m mes = readHeader B m' mes ∧
    ∀ i < sz.toNat, m (readPayload B m mes + i) = m' (readPayload B m' mes + i)

/-- The bytes of the header that `step_sp_alloc` does not write: all but the length, as
far as they lie behind the first `sizeof(struct step_mes_header)` bytes of the
measurement. -/
def PoolBuild.Uncleared (B : PoolBuild) (o : ℕ) : Prop :=
  o < sizeofMesHeader ∧ ¬(8 ≤ o ∧ o < 10) ∧ sizeofMesHeader ≤ B.header + o

section Header

variable {B : PoolBuild} {m m' : Memory} {mes mes' : ℕ} {sz : BitVec 16}

/-- **A header is its twelve bytes.** -/
theorem readHeader_eq_iff :
    readHeader B m mes = readHeader B m' mes' ↔
      ∀ o < sizeofMesHeader, m (mes + B.header + o) = m' (mes' + B.header + o) := by
  have hword : ∀ p p' : ℕ, BitVec.ofNat 32 (load m p 4) = BitVec.ofNat 32 (load m' p' 4) ↔
      ∀ i < 4, m (p + i) = m' (p' + i) := by
    intro p p'
    rw [← load_eq_iff, ← BitVec.toNat_inj, BitVec.toNat_ofNat, BitVec.toNat_ofNat,
      Nat.mod_eq_of_lt (show load m p 4 < 2 ^ 32 from load_lt m p 4),
      Nat.mod_eq_of_lt (show load m' p' 4 < 2 ^ 32 from load_lt m' p' 4)]
  unfold readHeader sizeofMesHeader
  rw [StepMesHeader.mk.injEq, hword, hword, hword]
  constructor
  · rintro ⟨hfilter, hunit, hsrclen⟩ o ho
    by_cases h4 : o < 4
    · exact hfilter o h4
    · by_cases h8 : o < 8
      · have := hunit (o - 4) (by omega)
        rwa [show mes + B.header + 4 + (o - 4) = mes + B.header + o by omega,
          show mes' + B.header + 4 + (o - 4) = mes' + B.header + o by omega] at this
      · have := hsrclen (o - 8) (by omega)
        rwa [show mes + B.header + 8 + (o - 8) = mes + B.header + o by omega,
          show mes' + B.header + 8 + (o - 8) = mes' + B.header + o by omega] at this
  · intro h
    refine ⟨fun i hi => h i (by omega), fun i hi => ?_, fun i hi => ?_⟩
    · simpa only [Nat.add_assoc] using h (4 + i) (by omega)
    · simpa only [Nat.add_assoc] using h (8 + i) (by omega)

/-- Two new headers differ in nothing but the bytes that are not cleared. -/
theorem newHeader_eq_iff (hfit : mes + B.size ≤ 256 ^ B.ptrSize) :
    readHeader B (initMes B m mes sz) mes = readHeader B (initMes B m' mes sz) mes ↔
      ∀ o, B.Uncleared o → m (mes + B.header + o) = m' (mes + B.header + o) := by
  rw [readHeader_eq_iff]
  constructor
  · rintro h o ⟨ho, hlen, hclear⟩
    have hbyte := h o ho
    rwa [initMes_header_byte hfit ho, initMes_header_byte hfit ho, if_neg hlen, if_neg hlen,
      if_neg (by omega), if_neg (by omega)] at hbyte
  · intro h o ho
    rw [initMes_header_byte hfit ho, initMes_header_byte hfit ho]
    split
    · rfl
    · rename_i hlen
      split
      · rfl
      · exact h o ⟨ho, hlen, by omega⟩

/-- On a memory full of zeros the header is in its default state. -/
theorem newHeader_zero (hfit : mes + B.size ≤ 256 ^ B.ptrSize) :
    readHeader B (initMes B (fun _ => 0) mes sz) mes = .initial sz := by
  have hzero : ∀ o < sizeofMesHeader, ¬(8 ≤ o ∧ o < 10) →
      initMes B (fun _ => 0) mes sz (mes + B.header + o) = 0 := by
    intro o ho hlen
    rw [initMes_header_byte hfit ho, if_neg hlen]
    split <;> rfl
  have hfilter : load (initMes B (fun _ => 0) mes sz) (mes + B.header) 4 = 0 :=
    load_eq_zero_iff.mpr fun i hi => hzero i (by unfold sizeofMesHeader; omega) (by omega)
  have hunit : load (initMes B (fun _ => 0) mes sz) (mes + B.header + 4) 4 = 0 := by
    refine load_eq_zero_iff.mpr fun i hi => ?_
    rw [Nat.add_assoc]
    exact hzero (4 + i) (by unfold sizeofMesHeader; omega) (by omega)
  have hrest : load (initMes B (fun _ => 0) mes sz) (mes + B.header + 8 + 2) 2 = 0 := by
    refine load_eq_zero_iff.mpr fun i hi => ?_
    rw [Nat.add_assoc, Nat.add_assoc]
    exact hzero (8 + (2 + i)) (by unfold sizeofMesHeader; omega) (by omega)
  have hlen : load (initMes B (fun _ => 0) mes sz) (mes + B.header + 8) 2 = sz.toNat := by
    have hstored : load (initMes B (fun _ => 0) mes sz) (mes + B.header + 8) 2 =
        load (store (fun _ => 0) (mes + B.header + 8) 2 sz.toNat) (mes + B.header + 8) 2 := by
      refine load_congr fun i hi => ?_
      rw [Nat.add_assoc, initMes_header_byte hfit (by unfold sizeofMesHeader; omega),
        if_pos (by omega), store_of_mem (by omega) (by omega)]
      congr 3
      omega
    rw [hstored, load_store, Nat.mod_eq_of_lt (show sz.toNat < 256 ^ 2 from sz.isLt)]
  have hsrclen : load (initMes B (fun _ => 0) mes sz) (mes + B.header + 8) 4 = sz.toNat := by
    rw [show 4 = 2 + 2 from rfl, load_add, hlen, hrest, Nat.mul_zero, Nat.add_zero]
  rw [readHeader, hfilter, hunit, hsrclen, BitVec.ofNat_toNat]
  rfl

/-- A new header is in its default state exactly if the bytes that are not cleared
were 0. -/
theorem newHeader_initial_iff (hfit : mes + B.size ≤ 256 ^ B.ptrSize) :
    readHeader B (initMes B m mes sz) mes = .initial sz ↔
      ∀ o, B.Uncleared o → m (mes + B.header + o) = 0 := by
  rw [← newHeader_zero hfit]
  exact newHeader_eq_iff hfit

end Header

/-! ### Whole runs -/

/-- A successful allocation returns a fresh measurement. -/
def ReturnsFresh (B : PoolBuild) (s : Pool) : PoolLabel → Prop
  | .alloc t sz (some mes) => ∀ s', poolStep B s (.alloc t sz (some mes)) = some s' →
      FreshMes B s'.mem mes sz
  | _ => True

/-- A successful allocation finds the bytes it does not clear at 0. -/
def FindsCleared (B : PoolBuild) (s : Pool) : PoolLabel → Prop
  | .alloc _ _ (some mes) => ∀ o, B.Uncleared o → s.mem (mes + B.header + o) = 0
  | _ => True

section Fresh

variable {B : PoolBuild} {s s' s₁ s₁' : Pool} {label : PoolLabel} {labels : List PoolLabel}
  {t : Tid} {sz : BitVec 16} {mes : ℕ}

theorem alloc_mem (hstep : poolStep B s (.alloc t sz (some mes)) = some s₁) :
    mes + B.size ≤ 256 ^ B.ptrSize ∧ s₁.mem = initMes B s.mem mes sz := by
  cases poolStep_move hstep with
  | alloc _ hout => exact ⟨hout.fit, rfl⟩

/-- The payload bytes of a new measurement read 0, wherever they are. -/
theorem newPayload_byte {m : Memory} (hfit : mes + B.size ≤ 256 ^ B.ptrSize) {i : ℕ}
    (hi : i < sz.toNat) :
    initMes B m mes sz (readPayload B (initMes B m mes sz) mes + i) = 0 := by
  rw [initMes_payload hfit]
  exact initMes_payload_byte hfit hi

/-- **The step lemma of fresh measurements.** -/
theorem returnsFresh_iff (hstep : poolStep B s label = some s₁) :
    ReturnsFresh B s label ↔ FindsCleared B s label := by
  cases poolStep_move hstep with
  | fail _ => exact Iff.rfl
  | free _ _ _ => exact Iff.rfl
  | write => exact Iff.rfl
  | @alloc t sz mes _ _ =>
      obtain ⟨hfit, -⟩ := alloc_mem hstep
      have hfresh : FreshMes B (initMes B s.mem mes sz) mes sz ↔
          readHeader B (initMes B s.mem mes sz) mes = .initial sz := by
        constructor
        · exact FreshMes.header
        · exact fun hheader => ⟨hheader, fun i hi => newPayload_byte hfit hi, initMes_freeAfterUse⟩
      show (∀ s', poolStep B s (.alloc t sz (some mes)) = some s' → FreshMes B s'.mem mes sz) ↔
        ∀ o, B.Uncleared o → s.mem (mes + B.header + o) = 0
      rw [hstep, ← newHeader_initial_iff hfit, ← hfresh]
      simp only [Option.some_inj, forall_eq']

/-- Two allocations in the same place return the same measurement exactly if the bytes that are
not cleared agree.  Nothing else of the two memories is compared. -/
theorem sameMes_iff (hstep : poolStep B s (.alloc t sz (some mes)) = some s₁)
    (hstep' : poolStep B s' (.alloc t sz (some mes)) = some s₁') :
    SameMes B s₁.mem s₁'.mem mes sz ↔
      ∀ o, B.Uncleared o → s.mem (mes + B.header + o) = s'.mem (mes + B.header + o) := by
  obtain ⟨hfit, hmem⟩ := alloc_mem hstep
  rw [hmem, (alloc_mem hstep').2, ← newHeader_eq_iff hfit]
  refine and_iff_left fun i hi => ?_
  rw [newPayload_byte hfit hi, newPayload_byte hfit hi]

/-- **Fresh measurements**: in a run every successful allocation returns a fresh
measurement exactly when each of them finds the bytes it does not clear at 0; and an
allocation after one run and the same allocation after another return the same
measurement exactly if the two runs leave the same in these bytes. -/
theorem freshMes_iff (hrun : run (poolStep B) Pool.init labels = some s) :
    (Meets (poolStep B) (ReturnsFresh B) Pool.init labels ↔
      Meets (poolStep B) (FindsCleared B) Pool.init labels) ∧
    ∀ labels' s', run (poolStep B) Pool.init labels' = some s' →
      ∀ t sz mes s₁ s₁', poolStep B s (.alloc t sz (some mes)) = some s₁ →
        poolStep B s' (.alloc t sz (some mes)) = some s₁' →
        (SameMes B s₁.mem s₁'.mem mes sz ↔
          ∀ o, B.Uncleared o → s.mem (mes + B.header + o) = s'.mem (mes + B.header + o)) := by
  constructor
  · refine meets_iff_meets (fun _ _ _ _ _ _ => trivial) ?_ trivial meets_true hrun
    exact fun _ _ _ _ _ hstep => returnsFresh_iff hstep
  · exact fun _ _ _ _ _ _ _ _ hstep hstep' => sameMes_iff hstep hstep'

end Fresh

/-- **A stale header**: what a producer wrote into the filter word of a measurement is
found in the next measurement in the same block. -/
theorem stale_header :
    ∃ s s₁, run (poolStep .words32) Pool.init
        [.alloc 1 0 (some 1024), .write 1044 7, .free 1 1024] = some s ∧
      poolStep .words32 s (.alloc 1 0 (some 1024)) = some s₁ ∧
      (readHeader .words32 s₁.mem 1024).filterBits = 7 ∧ ¬FreshMes .words32 s₁.mem 1024 0 :=
  ⟨_, _, rfl, rfl, by decide,
    fun h => absurd (congrArg StepMesHeader.filterBits h.header) (by decide)⟩

/-- Thread 1 has written into the payload of a measurement and freed it. -/
def usedBlock : List PoolLabel :=
  [.alloc 1 4 (some 1024), .write 2320 9, .free 1 1024]

/-- **A block used before**: what was written into its payload is not found again, and the
measurement is the one a first allocation returns. -/
theorem freshMes_iff_reused :
    Meets (poolStep .words32) (ReturnsFresh .words32) Pool.init
        (usedBlock ++ [.alloc 2 4 (some 1024)]) ∧
      ∃ s s₁ s₂, run (poolStep .words32) Pool.init usedBlock = some s ∧ s.mem 2320 = 9 ∧
        poolStep .words32 s (.alloc 2 4 (some 1024)) = some s₁ ∧
        poolStep .words32 Pool.init (.alloc 2 4 (some 1024)) = some s₂ ∧
          SameMes .words32 s₁.mem s₂.mem 1024 4 := by
  -- what has been written is the payload, and the header is as the first allocation left it
  obtain ⟨s, s₁, s₂, hused, hnine, hstep, hfirst, hcleared⟩ : ∃ s s₁ s₂,
      run (poolStep .words32) Pool.init usedBlock = some s ∧ s.mem 2320 = 9 ∧
        poolStep .words32 s (.alloc 2 4 (some 1024)) = some s₁ ∧
        poolStep .words32 Pool.init (.alloc 2 4 (some 1024)) = some s₂ ∧
        ∀ o < 12, ¬(8 ≤ o ∧ o < 10) → s.mem (1044 + o) = 0 :=
    ⟨_, _, _, rfl, rfl, rfl, rfl, by decide⟩
  have huncleared : ∀ o, PoolBuild.words32.Uncleared o → s.mem (1044 + o) = 0 :=
    fun o ho => hcleared o ho.1 ho.2.1
  have hfinds : Meets (poolStep .words32) (FindsCleared .words32) Pool.init usedBlock :=
    ⟨fun _ _ => rfl, fun t ht => ⟨trivial, fun t ht => ⟨trivial, fun _ _ => trivial⟩⟩⟩
  have hrun : run (poolStep .words32) Pool.init (usedBlock ++ [.alloc 2 4 (some 1024)]) =
      some s₁ := (run_append_eq_some _).mpr ⟨s, hused, (run_cons_eq_some _).mpr ⟨s₁, hstep, rfl⟩⟩
  refine ⟨(freshMes_iff hrun).1.mpr (hfinds.append hused ⟨huncleared, fun _ _ => trivial⟩),
    s, s₁, s₂, hused, hnine, hstep, hfirst, ?_⟩
  exact ((freshMes_iff hused).2 [] Pool.init rfl 2 4 1024 s₁ s₂ hstep hfirst).mpr huncleared

end StepPipeline
