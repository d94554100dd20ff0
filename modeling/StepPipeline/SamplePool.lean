import StepPipeline.Kernel
import StepPipeline.Measurement
import StepPipeline.Library.ByteMemory
import StepPipeline.Library.LabelledRun

/-!
# The sample pool

`sample_pool.c` over a byte-addressed memory: a measurement is a block of a Zephyr
heap, and `step_sp_alloc` and `step_sp_free` read and write its header where the
producers and the nodes read and write it too.

* `PoolBuild` — the layout of `struct step_measurement`, a matter of the compiler and
  of the size of `struct k_work`, and the size of the heap;
* `initMes` — what `step_sp_alloc` writes, statement by statement, with what it comes
  to for each part of the block;
* `stepSpAlloc`, `stepSpFree` — the two calls, which run under a recursive mutex;
* `poolStep` — one step of the pool and its surroundings: a call by some thread, or a
  byte that anybody writes; `PoolInvariant` is what every step keeps of the blocks;
* `lockBalanced_iff` — every call gives the mutex back **exactly** when no allocation
  fails; `lockedOut_of_held` — afterwards the other threads wait for good.

## Memory, and who writes to it

The pool does not own the measurements it hands out: whoever holds one writes to its header, and
`step_sp_free` believes what it reads there.  So the memory is part of the state, byte by byte,
and a step of the surroundings writes any byte anywhere.  That is more than a correct program
does; results that need less of it say which writes they exclude.

The layout is not fixed.  `struct k_work` differs from one configuration of the kernel to the
next, so the offsets are fields of `PoolBuild`, ordered as the members are declared and as far
apart as their types require, and each result holds for all of them.  `PoolBuild.words32` is one
instance, and the one the examples are computed in.

## The heap

`k_heap_alloc` is not modelled.  What it answers is in the label, and an answer is possible if it
is NULL or a block that lies apart from those in use (`Pool.HandsOut`).  That a heap never hands
out more bytes than it has is part of this, with the bytes the code itself counts for a block; a
heap with an overhead hands out less.
-/

namespace StepPipeline

open ByteMemory LabelledRun

/-! ### The build -/

/-- `sizeof(struct step_mes_header)`: three 32-bit words. -/
def sizeofMesHeader : ℕ := 12

/-- The layout of `struct step_measurement` and the size of the heap.  The members
stand in the order of their declaration. -/
structure PoolBuild where
  /-- `CONFIG_STEP_POOL_SIZE`, an `int` of Kconfig. -/
  poolSize : ℕ
  poolSize_lt : poolSize < 2 ^ 31
  /-- `sizeof(void *)`. -/
  ptrSize : ℕ
  four_le_ptrSize : 4 ≤ ptrSize
  /-- The offset of `queue.free_after_use`. -/
  freeAfterUse : ℕ
  /-- The offset of `header`. -/
  header : ℕ
  /-- The offset of `payload`. -/
  payload : ℕ
  /-- `sizeof(struct step_measurement)`. -/
  size : ℕ
  freeAfterUse_lt : freeAfterUse < header
  header_le : header + sizeofMesHeader ≤ payload
  payload_le : payload + ptrSize ≤ size
  size_lt : size < 2 ^ 16

/-- The 32-bit build: `struct k_work` has four words, and `free_after_use` comes
behind it. -/
def PoolBuild.words32 : PoolBuild where
  poolSize := 4096
  poolSize_lt := by decide
  ptrSize := 4
  four_le_ptrSize := by decide
  freeAfterUse := 16
  header := 20
  payload := 32
  size := 36
  freeAfterUse_lt := by decide
  header_le := by decide
  payload_le := by decide
  size_lt := by decide

/-! ### Measurements in memory -/

section Memory

variable (B : PoolBuild)

/-- `mes->header`. -/
def readHeader (m : Memory) (mes : ℕ) : StepMesHeader :=
  ⟨BitVec.ofNat 32 (load m (mes + B.header) 4), BitVec.ofNat 32 (load m (mes + B.header + 4) 4),
    BitVec.ofNat 32 (load m (mes + B.header + 8) 4)⟩

/-- `mes->payload`. -/
def readPayload (m : Memory) (mes : ℕ) : ℕ := load m (mes + B.payload) B.ptrSize

/-- What `step_sp_alloc(sz)` writes for the measurement at `mes`.  The assignments are in the
order of the source, as later ones may overwrite earlier ones, and the payload pointer is read
back for the last `memset`, as it is in C. -/
def initMes (m : Memory) (mes : ℕ) (sz : BitVec 16) : Memory :=
  -- the size of the header, from the start of the measurement
  let m := memset m mes 0 sizeofMesHeader
  let m := store m (mes + B.header + 8) 2 sz.toNat
  let m := store m (mes + B.payload) B.ptrSize 0
  let m :=
    if sz = 0 then m
    else
      -- `mes + sizeof(struct step_measurement)`: the addition counts measurements
      let m := store m (mes + B.payload) B.ptrSize (mes + B.size * B.size)
      memset m (readPayload B m mes) 0 sz.toNat
  writeByte m (mes + B.freeAfterUse) 1

/-- The `payload` pointer of a new measurement.  The remainder is that of the address space: on a
small build the sum may go past its end. -/
def payloadOf (mes : ℕ) (sz : BitVec 16) : ℕ :=
  if sz = 0 then 0 else (mes + B.size * B.size) % 256 ^ B.ptrSize

/-- The bytes charged for a payload of `len` bytes: the block, rounded up to the next
multiple of 8 above it. -/
def blockLen (len : ℕ) : ℕ := len + B.size + (8 - (len + B.size) % 8)

end Memory

/-! ### What a new measurement consists of -/

section InitMes

variable {B : PoolBuild} {m : Memory} {mes x : ℕ} {sz : BitVec 16}

theorem PoolBuild.size_pos (B : PoolBuild) : 16 ≤ B.size := by
  have h1 := B.header_le
  have h2 := B.payload_le
  have h3 := B.four_le_ptrSize
  unfold sizeofMesHeader at h1
  omega

/-- Every pointer has at least 32 bits. -/
theorem PoolBuild.address_space (B : PoolBuild) : 2 ^ 32 ≤ 256 ^ B.ptrSize := by
  have h := Nat.pow_le_pow_right (show 0 < 256 by omega) B.four_le_ptrSize
  norm_num at h ⊢
  exact h

/-- **The payload pointer leads out of the block**: it points behind the end of the
structure and further, or, where the addition wraps around, far below it. -/
theorem payloadOf_apart (hfit : mes + B.size ≤ 256 ^ B.ptrSize) (hsz : sz ≠ 0) :
    payloadOf B mes sz + 2 ^ 16 ≤ mes ∨ mes + B.size < payloadOf B mes sz := by
  have hspace := B.address_space
  have hpos := B.size_pos
  have hlt := B.size_lt
  have hsquare : B.size * B.size ≤ 65535 * 65535 :=
    Nat.mul_le_mul (by omega) (by omega)
  have hgrow : 16 * B.size ≤ B.size * B.size := Nat.mul_le_mul_right _ hpos
  unfold payloadOf
  rw [if_neg hsz]
  -- the addition wraps around at most once
  rcases lt_or_ge (mes + B.size * B.size) (256 ^ B.ptrSize) with hin | hwrap
  · rw [Nat.mod_eq_of_lt hin]
    omega
  · rw [Nat.mod_eq_sub_mod hwrap, Nat.mod_eq_of_lt (by omega)]
    omega

/-- The pointer as it is read back. -/
theorem readPayload_store (hsz : sz ≠ 0) :
    readPayload B (store m (mes + B.payload) B.ptrSize (mes + B.size * B.size)) mes =
      payloadOf B mes sz := by
  rw [readPayload, load_store, payloadOf, if_neg hsz]

/-- **Inside the structure** only the assignments to its members count: what
`memset(mes->payload, 0, sz)` writes lies elsewhere. -/
theorem initMes_of_struct (hfit : mes + B.size ≤ 256 ^ B.ptrSize) (hle : mes ≤ x)
    (hlt : x < mes + B.size) :
    initMes B m mes sz x =
      writeByte
        (store (store (memset m mes 0 sizeofMesHeader) (mes + B.header + 8) 2 sz.toNat)
          (mes + B.payload) B.ptrSize (if sz = 0 then 0 else mes + B.size * B.size))
        (mes + B.freeAfterUse) 1 x := by
  unfold initMes writeByte
  by_cases hsz : sz = 0
  · simp only [hsz, if_true]
  · have hapart := payloadOf_apart hfit hsz
    have hbound := sz.isLt
    simp only [hsz, if_false, store_store, readPayload_store hsz]
    rw [memset_of_not_mem (by omega)]

/-- The `payload` pointer. -/
theorem initMes_payload (hfit : mes + B.size ≤ 256 ^ B.ptrSize) :
    readPayload B (initMes B m mes sz) mes = payloadOf B mes sz := by
  have hheader := B.header_le
  have hflag := B.freeAfterUse_lt
  have hend := B.payload_le
  have hbytes : readPayload B (initMes B m mes sz) mes =
      load (store (store (memset m mes 0 sizeofMesHeader) (mes + B.header + 8) 2 sz.toNat)
        (mes + B.payload) B.ptrSize (if sz = 0 then 0 else mes + B.size * B.size))
        (mes + B.payload) B.ptrSize := by
    refine load_congr fun i hi => ?_
    rw [initMes_of_struct hfit (by omega) (by omega), writeByte_of_ne (by omega)]
  rw [hbytes, load_store, payloadOf]
  split
  · exact Nat.zero_mod _
  · rfl

/-- The payload bytes, wherever they are. -/
theorem initMes_payload_byte (hfit : mes + B.size ≤ 256 ^ B.ptrSize) {i : ℕ}
    (hi : i < sz.toNat) : initMes B m mes sz (payloadOf B mes sz + i) = 0 := by
  have hsz : sz ≠ 0 := by
    rintro rfl
    exact absurd hi (Nat.not_lt_zero i)
  have hapart := payloadOf_apart hfit hsz
  have hflag := B.freeAfterUse_lt
  have hheader := B.header_le
  have hend := B.payload_le
  have hbound := sz.isLt
  unfold initMes
  rw [writeByte_of_ne (by omega)]
  simp only [hsz, if_false, readPayload_store hsz]
  exact memset_of_mem (by omega) (by omega)

theorem initMes_freeAfterUse : initMes B m mes sz (mes + B.freeAfterUse) = 1 :=
  writeByte_self _ _ _

/-- A byte of the header: the length has been assigned, the rest has been cleared as
far as the first `sizeof(struct step_mes_header)` bytes of the measurement reach. -/
theorem initMes_header_byte (hfit : mes + B.size ≤ 256 ^ B.ptrSize) {o : ℕ}
    (ho : o < sizeofMesHeader) :
    initMes B m mes sz (mes + B.header + o) =
      if 8 ≤ o ∧ o < 10 then BitVec.ofNat 8 (sz.toNat / 256 ^ (o - 8))
      else if B.header + o < sizeofMesHeader then 0 else m (mes + B.header + o) := by
  have hheader := B.header_le
  have hflag := B.freeAfterUse_lt
  have hend := B.payload_le
  rw [initMes_of_struct hfit (by omega) (by omega), writeByte_of_ne (by omega),
    store_of_not_mem (by omega)]
  split
  · rw [store_of_mem (by omega) (by omega)]
    congr 3
    omega
  · rw [store_of_not_mem (by omega)]
    split
    · exact memset_of_mem (by omega) (by omega)
    · exact memset_of_not_mem (by omega)

/-- Outside the structure and the payload nothing is written. -/
theorem initMes_outside (hstruct : x < mes ∨ mes + B.size ≤ x)
    (hpayload : x < payloadOf B mes sz ∨ payloadOf B mes sz + sz.toNat ≤ x) :
    initMes B m mes sz x = m x := by
  have hheader := B.header_le
  have hflag := B.freeAfterUse_lt
  have hend := B.payload_le
  unfold sizeofMesHeader at hheader
  have hclear : ∀ v, store (store (memset m mes 0 sizeofMesHeader) (mes + B.header + 8) 2 sz.toNat)
      (mes + B.payload) B.ptrSize v x = m x := by
    intro v
    rw [store_of_not_mem (by omega), store_of_not_mem (by omega),
      memset_of_not_mem (by unfold sizeofMesHeader; omega)]
  unfold initMes
  rw [writeByte_of_ne (by omega)]
  by_cases hsz : sz = 0
  · simp only [hsz, if_true] at hclear ⊢
    exact hclear 0
  · simp only [hsz, if_false, store_store, readPayload_store hsz]
    rw [memset_of_not_mem hpayload]
    exact hclear _

end InitMes

/-! ### The calls -/

/-- `struct step_sp_stats`. -/
structure StepSpStats where
  bytesAlloc : BitVec 32
  bytesAllocTotal : BitVec 32
  poolFreeCalls : BitVec 32
  bytesFreedTotal : BitVec 32
  poolAllocCalls : BitVec 32
  deriving DecidableEq, Repr

/-- A measurement that has been handed out and not been freed.  `charged` is a
history variable: the bytes `step_sp_alloc` charged for it. -/
structure LiveMes where
  mes : ℕ
  sz : BitVec 16
  charged : ℕ
  deriving DecidableEq, Repr

/-- The memory, the statics of `sample_pool.c`, and the blocks of the heap that are in use.
`live` is what the heap knows; the code has no such list. -/
structure Pool where
  mem : Memory
  stats : StepSpStats
  allocMtx : KMutex
  live : List LiveMes

/-- The pool at start-up. -/
def Pool.init : Pool := ⟨fun _ => 0, ⟨0, 0, 0, 0, 0⟩, .free, []⟩

/-- The bytes charged for all live measurements together. -/
def Pool.charged (s : Pool) : ℕ := (s.live.map LiveMes.charged).sum

/-- `step_sp_alloc(sz)` by thread `t`, with what `k_heap_alloc` returns; `none` while
the call waits for the mutex.  A call that fails returns without unlocking it. -/
def stepSpAlloc (B : PoolBuild) (s : Pool) (t : Tid) (sz : BitVec 16) (heap : Option ℕ) :
    Option (Option ℕ × Pool) :=
  let stats := { s.stats with poolAllocCalls := s.stats.poolAllocCalls + 1 }
  (s.allocMtx.lock t).map fun mtx =>
    match heap with
    | none => (none, { s with stats := stats, allocMtx := mtx })
    | some mes =>
        let len := blockLen B sz.toNat
        (some mes,
          { mem := initMes B s.mem mes sz
            stats :=
              { stats with
                bytesAlloc := stats.bytesAlloc + BitVec.ofNat 32 len
                bytesAllocTotal := stats.bytesAllocTotal + BitVec.ofNat 32 len }
            allocMtx := mtx.unlock t
            live := ⟨mes, sz, len⟩ :: s.live })

/-- `step_sp_free(mes)` by thread `t`.  The length is read from the header as it is now.  There is
no test for NULL and none for a second free: `poolStep` takes a free of a measurement that is not
live for undefined and has no such step. -/
def stepSpFree (B : PoolBuild) (s : Pool) (t : Tid) (mes : ℕ) : Option Pool :=
  let stats := { s.stats with poolFreeCalls := s.stats.poolFreeCalls + 1 }
  (s.allocMtx.lock t).map fun mtx =>
    let len := blockLen B (readHeader B s.mem mes).srclenLen.toNat
    { s with
      stats :=
        { stats with
          bytesAlloc := stats.bytesAlloc - BitVec.ofNat 32 len
          bytesFreedTotal := stats.bytesFreedTotal + BitVec.ofNat 32 len }
      allocMtx := mtx.unlock t
      live := s.live.eraseP fun b => b.mes == mes }

/-- `step_sp_bytes_alloc`. -/
def stepSpBytesAlloc (s : Pool) : ℤ := s.stats.bytesAlloc.toInt

/-! ### The pool and its surroundings -/

/-- **What is relied on of `k_heap_alloc`** when it does not fail: the block has the
size asked for, lies in the address space and apart from all blocks in use, and the
heap never hands out more than it has, a record taking the bytes charged for it. -/
def Pool.HandsOut (B : PoolBuild) (s : Pool) (sz : BitVec 16) (mes : ℕ) : Prop :=
  mes ≠ 0 ∧ mes + B.size + sz.toNat ≤ 256 ^ B.ptrSize ∧
    (∀ b ∈ s.live, mes + B.size + sz.toNat ≤ b.mes ∨ b.mes + B.size + b.sz.toNat ≤ mes) ∧
    s.charged + blockLen B sz.toNat ≤ B.poolSize

instance (B : PoolBuild) (s : Pool) (sz : BitVec 16) (mes : ℕ) :
    Decidable (s.HandsOut B sz mes) :=
  inferInstanceAs (Decidable (_ ∧ _ ∧ _ ∧ _))

/-- What can happen next. -/
inductive PoolLabel where
  /-- Thread `t` calls `step_sp_alloc(sz)`, and the heap answers. -/
  | alloc (t : Tid) (sz : BitVec 16) (heap : Option ℕ)
  /-- Thread `t` calls `step_sp_free(mes)`. -/
  | free (t : Tid) (mes : ℕ)
  /-- Somebody writes a byte: a producer, a node, the heap. -/
  | write (addr : ℕ) (byte : BitVec 8)
  deriving DecidableEq, Repr

/-- **One step of the pool and its surroundings**; `none` if the label is not enabled:
while the call waits, if the heap cannot answer so, or if the measurement to be freed is
not live. -/
def poolStep (B : PoolBuild) (s : Pool) : PoolLabel → Option Pool
  | .alloc t sz none => (stepSpAlloc B s t sz none).map Prod.snd
  | .alloc t sz (some mes) =>
      if s.HandsOut B sz mes then (stepSpAlloc B s t sz (some mes)).map Prod.snd else none
  | .free t mes =>
      if s.live.any fun b => b.mes == mes then stepSpFree B s t mes else none
  | .write addr byte => some { s with mem := writeByte s.mem addr byte }

/-- **What a step can do.** -/
inductive PoolMove (B : PoolBuild) (s : Pool) : PoolLabel → Pool → Prop
  | alloc {t : Tid} {sz : BitVec 16} {mes : ℕ} (hlock : s.allocMtx.lock t ≠ none)
      (hout : s.HandsOut B sz mes) :
      PoolMove B s (.alloc t sz (some mes))
        { mem := initMes B s.mem mes sz
          stats :=
            { s.stats with
              poolAllocCalls := s.stats.poolAllocCalls + 1
              bytesAlloc := s.stats.bytesAlloc + BitVec.ofNat 32 (blockLen B sz.toNat)
              bytesAllocTotal := s.stats.bytesAllocTotal + BitVec.ofNat 32 (blockLen B sz.toNat) }
          allocMtx := s.allocMtx
          live := ⟨mes, sz, blockLen B sz.toNat⟩ :: s.live }
  | fail {t : Tid} {sz : BitVec 16} {mtx : KMutex} (hlock : s.allocMtx.lock t = some mtx) :
      PoolMove B s (.alloc t sz none)
        { s with
          stats := { s.stats with poolAllocCalls := s.stats.poolAllocCalls + 1 }
          allocMtx := mtx }
  | free {t : Tid} {before after : List LiveMes} {b : LiveMes}
      (hlock : s.allocMtx.lock t ≠ none) (hlive : s.live = before ++ b :: after)
      (hfirst : ∀ c ∈ before, c.mes ≠ b.mes) :
      PoolMove B s (.free t b.mes)
        { s with
          stats :=
            { s.stats with
              poolFreeCalls := s.stats.poolFreeCalls + 1
              bytesAlloc := s.stats.bytesAlloc -
                BitVec.ofNat 32 (blockLen B (readHeader B s.mem b.mes).srclenLen.toNat)
              bytesFreedTotal := s.stats.bytesFreedTotal +
                BitVec.ofNat 32 (blockLen B (readHeader B s.mem b.mes).srclenLen.toNat) }
          live := before ++ after }
  | write {addr : ℕ} {byte : BitVec 8} :
      PoolMove B s (.write addr byte) { s with mem := writeByte s.mem addr byte }

section Step

variable {B : PoolBuild} {s s' : Pool} {label : PoolLabel}

theorem poolStep_move (h : poolStep B s label = some s') : PoolMove B s label s' := by
  cases label with
  | alloc t sz heap =>
      cases heap with
      | none =>
          obtain ⟨⟨_, _⟩, hcall, rfl⟩ := Option.map_eq_some_iff.mp h
          obtain ⟨mtx, hlock, heq⟩ := Option.map_eq_some_iff.mp hcall
          cases heq
          exact .fail hlock
      | some mes =>
          rw [poolStep] at h
          split at h
          · rename_i hout
            obtain ⟨⟨_, _⟩, hcall, rfl⟩ := Option.map_eq_some_iff.mp h
            obtain ⟨mtx, hlock, heq⟩ := Option.map_eq_some_iff.mp hcall
            cases heq
            rw [KMutex.unlock_of_lock hlock]
            exact .alloc (by simp [hlock]) hout
          · cases h
  | free t mes =>
      rw [poolStep] at h
      split at h
      · rename_i hany
        obtain ⟨mtx, hlock, rfl⟩ := Option.map_eq_some_iff.mp h
        obtain ⟨c, hc, hcmes⟩ := List.any_eq_true.mp hany
        obtain ⟨b, before, after, hfirst, hb, hlive, herase⟩ :=
          List.exists_of_eraseP (p := fun b : LiveMes => b.mes == mes) hc hcmes
        obtain rfl : b.mes = mes := beq_iff_eq.mp hb
        rw [KMutex.unlock_of_lock hlock, herase]
        exact .free (by simp [hlock]) hlive (by simpa using hfirst)
      · cases h
  | write addr byte =>
      obtain rfl := Option.some.inj h
      exact .write

/-- A free that is waited for by nobody else goes through. -/
theorem exists_poolStep_free {t : Tid} {mes : ℕ} (hlive : ∃ b ∈ s.live, b.mes = mes)
    (hlock : s.allocMtx.lock t ≠ none) :
    ∃ s', poolStep B s (.free t mes) = some s' := by
  obtain ⟨b, hb, hmes⟩ := hlive
  obtain ⟨mtx, hmtx⟩ := Option.ne_none_iff_exists'.mp hlock
  have hany : (s.live.any fun b => b.mes == mes) = true :=
    List.any_eq_true.mpr ⟨b, hb, beq_iff_eq.mpr hmes⟩
  simp only [poolStep, hany, if_true, stepSpFree, hmtx, Option.map_some]
  exact ⟨_, rfl⟩

/-- What it leaves behind. -/
theorem poolStep_free {t : Tid} {mes : ℕ} (h : poolStep B s (.free t mes) = some s') :
    s'.live = s.live.eraseP (fun b => b.mes == mes) ∧ s'.mem = s.mem ∧
      s'.allocMtx = s.allocMtx := by
  rw [poolStep] at h
  split at h
  · obtain ⟨mtx, hmtx, rfl⟩ := Option.map_eq_some_iff.mp h
    exact ⟨rfl, rfl, KMutex.unlock_of_lock hmtx⟩
  · cases h

end Step

/-! ### The blocks in use -/

/-- Two live measurements have their blocks apart. -/
def LiveMes.Apart (B : PoolBuild) (b c : LiveMes) : Prop :=
  b.mes + B.size + b.sz.toNat ≤ c.mes ∨ c.mes + B.size + c.sz.toNat ≤ b.mes

/-- **The invariant of the blocks in use.** They lie apart, each was charged for what was asked,
and together they fit into the pool.  No byte of memory occurs in it, so writes keep it for
nothing. -/
structure PoolInvariant (B : PoolBuild) (s : Pool) : Prop where
  apart : s.live.Pairwise (LiveMes.Apart B)
  charged_eq : ∀ b ∈ s.live, b.charged = blockLen B b.sz.toNat
  room : s.charged ≤ B.poolSize

section Invariant

variable {B : PoolBuild} {s s' : Pool} {label : PoolLabel}

theorem poolInvariant_init (B : PoolBuild) : PoolInvariant B Pool.init where
  apart := List.Pairwise.nil
  charged_eq b hb := by cases hb
  room := Nat.zero_le _

/-- A measurement that is freed takes what was charged for it out of the sum. -/
theorem charged_of_split {before after : List LiveMes} {b : LiveMes}
    (hlive : s.live = before ++ b :: after) :
    s.charged = ((before ++ after).map LiveMes.charged).sum + b.charged := by
  rw [Pool.charged, hlive]
  simp only [List.map_append, List.map_cons, List.sum_append, List.sum_cons]
  omega

/-- **The step lemma of the blocks in use.** -/
theorem poolStep_invariant (h : PoolInvariant B s) (hstep : poolStep B s label = some s') :
    PoolInvariant B s' := by
  cases poolStep_move hstep with
  | @alloc t sz mes _ hout =>
      obtain ⟨-, -, hapart, hroom⟩ := hout
      refine ⟨List.Pairwise.cons hapart h.apart, ?_, ?_⟩
      · intro b hb
        rcases List.mem_cons.mp hb with rfl | hb
        · rfl
        · exact h.charged_eq b hb
      · show ((⟨mes, sz, blockLen B sz.toNat⟩ :: s.live).map LiveMes.charged).sum ≤ B.poolSize
        rw [List.map_cons, List.sum_cons, Nat.add_comm]
        exact hroom
  | fail _ => exact ⟨h.apart, h.charged_eq, h.room⟩
  | write => exact ⟨h.apart, h.charged_eq, h.room⟩
  | @free _ before after b _ hlive _ =>
      have hsub : (before ++ after).Sublist s.live := by
        rw [hlive]
        exact (List.Sublist.refl before).append (List.sublist_cons_self b after)
      refine ⟨h.apart.sublist hsub, fun c hc => h.charged_eq c (hsub.subset hc), ?_⟩
      have hsum := charged_of_split hlive
      have hroom := h.room
      show ((before ++ after).map LiveMes.charged).sum ≤ B.poolSize
      omega

/-- Measurements in blocks apart have different addresses. -/
theorem eq_of_mes_eq {before after : List LiveMes} {b c : LiveMes}
    (h : (before ++ b :: after).Pairwise (LiveMes.Apart B)) (hfirst : ∀ d ∈ before, d.mes ≠ b.mes)
    (hc : c ∈ before ++ b :: after) (hmes : c.mes = b.mes) : c = b := by
  have hpos := B.size_pos
  rcases List.mem_append.mp hc with hbefore | hrest
  · exact absurd hmes (hfirst c hbefore)
  · rcases List.mem_cons.mp hrest with rfl | hafter
    · rfl
    · have hapart := (List.pairwise_cons.mp (List.pairwise_append.mp h).2.1).1 c hafter
      unfold LiveMes.Apart at hapart
      omega

end Invariant

/-! ### The balance of the lock -/

/-- Every call returns with `step_sp_alloc_mtx` owned and nested as before the call. -/
def LockBalanced (B : PoolBuild) (s : Pool) (label : PoolLabel) : Prop :=
  ∀ s', poolStep B s label = some s' → s'.allocMtx = s.allocMtx

/-- The label is not an allocation that fails. -/
def PoolLabel.Granted : PoolLabel → Prop
  | .alloc _ _ none => False
  | _ => True

/-- A failed allocation counts the call and leaves the other statistics, the memory
and the blocks in use alone. -/
def FailureCounted (B : PoolBuild) (s : Pool) (label : PoolLabel) : Prop :=
  ¬label.Granted → ∀ s', poolStep B s label = some s' →
    s'.stats = { s.stats with poolAllocCalls := s.stats.poolAllocCalls + 1 } ∧
      s'.mem = s.mem ∧ s'.live = s.live

/-- The thread that makes the call. -/
def PoolLabel.caller : PoolLabel → Option Tid
  | .alloc t _ _ | .free t _ => some t
  | .write _ _ => none

section Lock

variable {B : PoolBuild} {s s' : Pool} {label : PoolLabel} {labels : List PoolLabel}

/-- **The step lemma of the mutex.** -/
theorem poolStep_allocMtx_iff (h : poolStep B s label = some s') :
    s'.allocMtx = s.allocMtx ↔ label.Granted := by
  cases poolStep_move h with
  | alloc _ _ => exact iff_of_true rfl trivial
  | free _ _ _ => exact iff_of_true rfl trivial
  | write => exact iff_of_true rfl trivial
  | fail hlock => exact iff_of_false (KMutex.lock_ne hlock) id

theorem failureCounted (B : PoolBuild) (s : Pool) (label : PoolLabel) :
    FailureCounted B s label := by
  intro hfail s' h
  cases poolStep_move h with
  | fail _ => exact ⟨rfl, rfl, rfl⟩
  | alloc _ _ => exact absurd trivial hfail
  | free _ _ _ => exact absurd trivial hfail
  | write => exact absurd trivial hfail

/-- **The balance of the lock**: in a run every call gives the mutex back exactly when no
allocation of the run fails.  Apart from the mutex, a failed allocation changes nothing but the
counter of calls.  The two halves are one theorem because the second is what makes the leak the
only fault of the path. -/
theorem lockBalanced_iff (hrun : run (poolStep B) Pool.init labels = some s) :
    (Meets (poolStep B) (LockBalanced B) Pool.init labels ↔
      ∀ label ∈ labels, label.Granted) ∧
    Meets (poolStep B) (FailureCounted B) Pool.init labels := by
  constructor
  · rw [← meets_label_iff hrun]
    refine meets_iff_meets (fun _ _ _ _ _ _ => trivial) ?_ trivial meets_true hrun
    intro s label s' _ _ hstep
    rw [← poolStep_allocMtx_iff hstep, LockBalanced, hstep]
    simp only [Option.some_inj, forall_eq']
  · exact meets_of_forall_mem fun label _ s => failureCounted B s label

/-- A thread that holds the mutex between its calls keeps it. -/
theorem poolStep_held {t : Tid} (hheld : ∃ n, s.allocMtx = .held t n)
    (h : poolStep B s label = some s') : ∃ n, s'.allocMtx = .held t n := by
  cases poolStep_move h with
  | alloc _ _ => exact hheld
  | free _ _ _ => exact hheld
  | write => exact hheld
  | @fail u sz mtx hlock =>
      obtain ⟨n, hn⟩ := hheld
      obtain ⟨k, rfl⟩ := KMutex.lock_eq_held hlock
      rw [hn, KMutex.lock] at hlock
      split at hlock
      · cases hlock
        exact ⟨n + 1, rfl⟩
      · cases hlock

/-- **Locked out**: while a thread holds the mutex between its calls, as it does from
its first failed allocation on, no call of another thread ever returns. -/
theorem lockedOut_of_held {t : Tid} (hheld : ∃ n, s.allocMtx = .held t n) :
    Meets (poolStep B)
      (fun s label => ∀ u, label.caller = some u → u ≠ t → poolStep B s label = none) s
      labels := by
  have hkeep : ∀ s label s', (∃ n, s.allocMtx = .held t n) → True →
      poolStep B s label = some s' → ∃ n, s'.allocMtx = .held t n :=
    fun _ _ _ h _ hstep => poolStep_held h hstep
  refine meets_of_invariant hkeep ?_ hheld meets_true
  rintro s label ⟨n, hn⟩ - u hcaller hne
  have hlock : s.allocMtx.lock u = none := by
    rw [hn, KMutex.lock, if_neg (Ne.symm hne)]
  rw [Option.eq_none_iff_forall_ne_some]
  intro s' hstep
  cases poolStep_move hstep with
  | write => cases hcaller
  | fail hl => cases hcaller; rw [hlock] at hl; cases hl
  | alloc hl _ => cases hcaller; exact hl hlock
  | free hl _ _ => cases hcaller; exact hl hlock

end Lock

/-- **A failed allocation keeps the mutex**: thread 1 asks for more than there is, and
thread 2 cannot allocate any more. -/
theorem failed_alloc_keeps_lock :
    ∃ s, run (poolStep .words32) Pool.init [.alloc 1 16384 none] = some s ∧
      s.allocMtx ≠ Pool.init.allocMtx ∧
      poolStep .words32 s (.alloc 2 0 (some 1024)) = none :=
  ⟨_, rfl, by decide, rfl⟩

/-- Two threads, two allocations and a free. -/
theorem lockBalanced_iff_two_threads :
    Meets (poolStep .words32) (LockBalanced .words32) Pool.init
      [.alloc 1 4 (some 1024), .alloc 2 0 (some 2048), .free 2 1024] := by
  have hrun : run (poolStep .words32) Pool.init
      [.alloc 1 4 (some 1024), .alloc 2 0 (some 2048), .free 2 1024] = some _ := rfl
  exact (lockBalanced_iff hrun).1.mpr (by simp [PoolLabel.Granted])

end StepPipeline
