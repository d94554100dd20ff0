import Mathlib.Data.BitVec
import Mathlib.Tactic.Ring

/-!
# A byte-addressed memory

Memory as a C program with scaled pointers and overlapping objects sees it: one
byte for each address, numbers stored little-endian.

* `writeByte`, `memset`, `store` — the ways to write, each with a lemma for the
  bytes it writes and one for the bytes it leaves alone;
* `load` — the number in a range of bytes; `load_store` reads back what was stored,
  `load_eq_iff` says that a number is neither more nor less than its bytes.

## Numbers of bytes

An address is a natural number and there is no end of memory; a client with a finite address space
says where its objects lie.  Numbers are stored and loaded as natural numbers of a given number of
bytes, because the same bytes are read as words, half-words and bit fields by different parts of a
program, and `load_eq_iff` brings all of these down to the bytes.

Nothing here knows of objects, alignment or allocation.  That two objects do not overlap is a fact
about two ranges, which the lemmas on bytes left alone take as a hypothesis that `omega` can
prove.
-/

namespace ByteMemory

/-- The byte at each address. -/
abbrev Memory : Type := ℕ → BitVec 8

/-- `*p = b` for a byte. -/
def writeByte (m : Memory) (p : ℕ) (b : BitVec 8) : Memory :=
  fun x => if x = p then b else m x

/-- `memset(p, b, n)`. -/
def memset (m : Memory) (p : ℕ) (b : BitVec 8) (n : ℕ) : Memory :=
  fun x => if p ≤ x ∧ x < p + n then b else m x

/-- `*p = v` for a number of `n` bytes, little-endian; what does not fit is cut off. -/
def store (m : Memory) (p n v : ℕ) : Memory :=
  fun x => if p ≤ x ∧ x < p + n then BitVec.ofNat 8 (v / 256 ^ (x - p)) else m x

/-- `*p` for a number of `n` bytes, little-endian. -/
def load (m : Memory) (p : ℕ) : ℕ → ℕ
  | 0 => 0
  | n + 1 => load m p n + 256 ^ n * (m (p + n)).toNat

/-! ### Bytes written and bytes left alone -/

section Write

variable {m : Memory} {p x n v : ℕ} {b : BitVec 8}

@[simp] theorem writeByte_self (m : Memory) (p : ℕ) (b : BitVec 8) : writeByte m p b p = b :=
  if_pos rfl

theorem writeByte_of_ne (h : x ≠ p) : writeByte m p b x = m x := if_neg h

theorem memset_of_mem (hle : p ≤ x) (hlt : x < p + n) : memset m p b n x = b :=
  if_pos ⟨hle, hlt⟩

theorem memset_of_not_mem (h : x < p ∨ p + n ≤ x) : memset m p b n x = m x :=
  if_neg (by omega)

theorem store_of_mem (hle : p ≤ x) (hlt : x < p + n) :
    store m p n v x = BitVec.ofNat 8 (v / 256 ^ (x - p)) :=
  if_pos ⟨hle, hlt⟩

theorem store_of_not_mem (h : x < p ∨ p + n ≤ x) : store m p n v x = m x :=
  if_neg (by omega)

/-- The second of two stores to one place is the one that counts. -/
@[simp] theorem store_store (m : Memory) (p n v w : ℕ) :
    store (store m p n v) p n w = store m p n w := by
  funext x
  unfold store
  split <;> rfl

end Write

/-! ### Numbers and their bytes -/

section Load

variable {m m' : Memory} {p p' : ℕ}

theorem load_lt (m : Memory) (p n : ℕ) : load m p n < 256 ^ n := by
  induction n with
  | zero => exact Nat.one_pos
  | succ n ih =>
      have hbyte : (m (p + n)).toNat ≤ 255 := by
        have := (m (p + n)).isLt
        omega
      calc load m p n + 256 ^ n * (m (p + n)).toNat
          < 256 ^ n + 256 ^ n * 255 := by
            have := Nat.mul_le_mul_left (256 ^ n) hbyte
            omega
        _ = 256 ^ (n + 1) := by ring

/-- A number read in two parts. -/
theorem load_add (m : Memory) (p n k : ℕ) :
    load m p (n + k) = load m p n + 256 ^ n * load m (p + n) k := by
  induction k with
  | zero => rw [Nat.add_zero, load, Nat.mul_zero, Nat.add_zero]
  | succ k ih =>
      show load m p (n + k) + 256 ^ (n + k) * (m (p + (n + k))).toNat =
        load m p n + 256 ^ n * (load m (p + n) k + 256 ^ k * (m (p + n + k)).toNat)
      rw [ih, Nat.add_assoc p]
      ring

/-- **A number is its bytes.** -/
theorem load_eq_iff {n : ℕ} : load m p n = load m' p' n ↔ ∀ i < n, m (p + i) = m' (p' + i) := by
  induction n with
  | zero => exact iff_of_true rfl fun i hi => absurd hi (Nat.not_lt_zero i)
  | succ n ih =>
      rw [Nat.forall_lt_succ_right, ← ih, load, load]
      constructor
      · intro h
        -- the lower part is the remainder, the highest byte the quotient
        have hmod := congrArg (· % 256 ^ n) h
        have hdiv := congrArg (· / 256 ^ n) h
        simp only [Nat.add_mul_mod_self_left, Nat.mod_eq_of_lt (load_lt _ _ n)] at hmod
        simp only [Nat.add_mul_div_left _ _ (Nat.pow_pos (Nat.succ_pos 255)),
          Nat.div_eq_of_lt (load_lt _ _ n), Nat.zero_add] at hdiv
        exact ⟨hmod, BitVec.eq_of_toNat_eq hdiv⟩
      · rintro ⟨hlow, hhigh⟩
        rw [hlow, hhigh]

theorem load_congr {n : ℕ} (h : ∀ i < n, m (p + i) = m' (p' + i)) : load m p n = load m' p' n :=
  load_eq_iff.mpr h

theorem load_eq_zero_iff {n : ℕ} : load m p n = 0 ↔ ∀ i < n, m (p + i) = 0 := by
  have hzero : load (fun _ => 0) p n = 0 := by
    induction n with
    | zero => rfl
    | succ n ih =>
        rw [load, ih]
        rfl
  have hiff : load m p n = load (fun _ => 0) p n ↔ ∀ i < n, m (p + i) = 0 := load_eq_iff
  rwa [hzero] at hiff

/-- **What was stored is read back**, as far as it fits. -/
theorem load_store (m : Memory) (p n v : ℕ) : load (store m p n v) p n = v % 256 ^ n := by
  have hprefix : ∀ k ≤ n, load (store m p n v) p k = v % 256 ^ k := by
    intro k
    induction k with
    | zero => exact fun _ => (Nat.mod_one v).symm
    | succ k ih =>
        intro hk
        rw [load, ih (by omega), store_of_mem (by omega) (by omega), Nat.add_sub_cancel_left,
          BitVec.toNat_ofNat, ← Nat.mod_pow_succ]
  exact hprefix n le_rfl

end Load

end ByteMemory
