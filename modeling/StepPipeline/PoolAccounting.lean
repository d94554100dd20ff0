import StepPipeline.SamplePool

/-!
# The accounts of the sample pool

`step_sp_alloc` charges for the size it is asked for, `step_sp_free` gives back what
the header of the measurement says by then, and in between anybody who holds the
measurement may have written to its header.

* `blockLen_eq_iff` — two sizes are charged alike exactly if they round alike;
* `poolStep_accounted_iff` — what one step does to the accounts;
* `accounted_iff` — in a run `step_sp_bytes_alloc` equals the sum charged for the live
  measurements at all times **exactly** when every measurement is freed with a length
  that rounds like the size it was allocated with.

## Exactness and wrapping

The statistics are 32-bit counters that `step_sp_bytes_alloc` returns as an `int`.  The sum
charged for the live measurements is bounded by the size of the pool (`PoolInvariant.room`), so as
long as the accounts are right the counter does not wrap; and as one step changes it by less than
2^18, a wrong counter cannot become right within a step by wrapping either.  This is what makes
the step lemma an equivalence.

A length that is off by less than the rounding does not show, which is why the condition compares
quotients and not lengths.
-/

namespace StepPipeline

open ByteMemory LabelledRun

/-! ### Sizes -/

section Sizes

variable {B : PoolBuild}

theorem blockLen_eq (B : PoolBuild) (len : ℕ) :
    blockLen B len = 8 * ((len + B.size) / 8 + 1) := by
  unfold blockLen
  omega

/-- Two sizes are charged alike exactly if they round alike. -/
theorem blockLen_eq_iff {len len' : ℕ} :
    blockLen B len = blockLen B len' ↔ (len + B.size) / 8 = (len' + B.size) / 8 := by
  rw [blockLen_eq, blockLen_eq]
  omega

theorem blockLen_lt (B : PoolBuild) (len : BitVec 16) : blockLen B len.toNat < 2 ^ 18 := by
  have hsize := B.size_lt
  have hlen := len.isLt
  unfold blockLen
  omega

end Sizes

/-! ### 32-bit counters -/

/-- A sum that fits is not wrapped around. -/
theorem toInt_add_ofNat {x : BitVec 32} {n : ℕ} (hlow : -2 ^ 31 ≤ x.toInt + n)
    (hhigh : x.toInt + n < 2 ^ 31) : (x + BitVec.ofNat 32 n).toInt = x.toInt + n := by
  rw [BitVec.toInt_add, BitVec.toInt_ofNat', Int.add_bmod_bmod]
  apply Int.bmod_eq_of_le <;> omega

/-- A difference that fits is not wrapped around. -/
theorem toInt_sub_ofNat {x : BitVec 32} {n : ℕ} (hlow : -2 ^ 31 ≤ x.toInt - n)
    (hhigh : x.toInt - n < 2 ^ 31) : (x - BitVec.ofNat 32 n).toInt = x.toInt - n := by
  rw [BitVec.toInt_sub, BitVec.toInt_ofNat', Int.sub_bmod_bmod]
  apply Int.bmod_eq_of_le <;> omega

/-! ### The accounts -/

/-- **The accounts are right**: `step_sp_bytes_alloc` is the sum of the bytes charged
for the live measurements. -/
def Accounted (s : Pool) : Prop := stepSpBytesAlloc s = s.charged

/-- A measurement is freed with a length that rounds like the size it was allocated with.  The
condition reads the header in the state before the free, and what the block was allocated with
from the list of live measurements. -/
def FreedAsAllocated (B : PoolBuild) (s : Pool) : PoolLabel → Prop
  | .free _ mes => ∀ b ∈ s.live, b.mes = mes →
      ((readHeader B s.mem mes).srclenLen.toNat + B.size) / 8 = (b.sz.toNat + B.size) / 8
  | _ => True

section Accounts

variable {B : PoolBuild} {s s' : Pool} {label : PoolLabel} {labels : List PoolLabel}

/-- **The step lemma of the accounts.** A state in which they are right is followed by one in
which they are right exactly if the step frees nothing with another length. -/
theorem poolStep_accounted_iff (hinv : PoolInvariant B s) (h : Accounted s)
    (hstep : poolStep B s label = some s') : Accounted s' ↔ FreedAsAllocated B s label := by
  have hroom := hinv.room
  have hlimit := B.poolSize_lt
  unfold Accounted stepSpBytesAlloc at h
  cases poolStep_move hstep with
  | fail _ => exact iff_of_true h trivial
  | write => exact iff_of_true h trivial
  | @alloc t sz mes _ hout =>
      obtain ⟨-, -, -, hfits⟩ := hout
      refine iff_of_true ?_ trivial
      show (s.stats.bytesAlloc + BitVec.ofNat 32 (blockLen B sz.toNat)).toInt =
        (((⟨mes, sz, blockLen B sz.toNat⟩ :: s.live).map LiveMes.charged).sum : ℕ)
      rw [toInt_add_ofNat (by omega) (by omega), h, List.map_cons, List.sum_cons, Nat.cast_add,
        Int.add_comm]
      rfl
  | @free t before after b _ hlive hfirst =>
      have hb : b ∈ s.live := hlive ▸ List.mem_append_cons_self
      have hsum := charged_of_split hlive
      have hcharged := hinv.charged_eq b hb
      have hlen := blockLen_lt B (readHeader B s.mem b.mes).srclenLen
      have hapart := hlive ▸ hinv.apart
      -- the one live measurement at this address is the one that is freed
      have hfreed : FreedAsAllocated B s (.free t b.mes) ↔
          blockLen B (readHeader B s.mem b.mes).srclenLen.toNat = b.charged := by
        rw [hcharged, blockLen_eq_iff]
        constructor
        · exact fun hall => hall b hb rfl
        · intro heq c hc hmes
          obtain rfl := eq_of_mes_eq hapart hfirst (hlive ▸ hc) hmes
          exact heq
      rw [hfreed]
      show (s.stats.bytesAlloc - BitVec.ofNat 32 _).toInt =
        (((before ++ after).map LiveMes.charged).sum : ℕ) ↔ _
      rw [toInt_sub_ofNat (by omega) (by omega), h]
      omega

/-- **Pool accounting**: in a run `step_sp_bytes_alloc` equals the sum of the bytes
charged for the live measurements at all times exactly when every measurement is freed
with a length that rounds like the size it was allocated with. -/
theorem accounted_iff (hrun : run (poolStep B) Pool.init labels = some s) :
    Always (poolStep B) Accounted Pool.init labels ↔
      Meets (poolStep B) (FreedAsAllocated B) Pool.init labels := by
  refine always_iff_meets (I := fun s : Pool => PoolInvariant B s ∧ Accounted s)
    (fun _ h => h.2) ?_ ?_ ⟨poolInvariant_init B, rfl⟩ hrun
  · rintro s label s' ⟨hinv, h⟩ hstep hlabel
    exact ⟨poolStep_invariant hinv hstep, (poolStep_accounted_iff hinv h hstep).mpr hlabel⟩
  · rintro s label s' ⟨hinv, h⟩ hstep h'
    exact (poolStep_accounted_iff hinv h hstep).mp h'

end Accounts

/-- **Bytes that are never given back**: a measurement is allocated with a payload of 20
bytes and freed with a length of 4. -/
theorem freed_with_shorter_length :
    ∃ s, run (poolStep .words32) Pool.init
        [.alloc 1 20 (some 1024), .write 1052 4, .free 0 1024] = some s ∧
      s.live = [] ∧ stepSpBytesAlloc s = 16 :=
  ⟨_, rfl, rfl, by decide⟩

/-- A length that rounds like the size asked for does no harm. -/
theorem accounted_iff_same_rounding :
    ∃ s, run (poolStep .words32) Pool.init
        [.alloc 1 20 (some 1024), .write 1052 22, .free 0 1024] = some s ∧
      (Always (poolStep .words32) Accounted Pool.init
          [.alloc 1 20 (some 1024), .write 1052 22, .free 0 1024] ↔
        Meets (poolStep .words32) (FreedAsAllocated .words32) Pool.init
          [.alloc 1 20 (some 1024), .write 1052 22, .free 0 1024]) :=
  ⟨_, rfl, accounted_iff rfl⟩

end StepPipeline
