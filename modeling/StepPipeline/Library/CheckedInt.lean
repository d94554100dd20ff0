import Mathlib.Algebra.Order.Floor.Semiring
import Mathlib.Data.BitVec
import Mathlib.Data.Rat.Floor

/-!
# Checked machine arithmetic

The operations of C on signed and unsigned integers of `w` bits, as functions that answer
`none` where the exact result does not fit: a signed overflow, an unsigned product or a
conversion that loses bits.

* `mulSigned`, `addSigned`, `mulUnsigned`, `addUnsigned` — the operations;
* `ofUnsigned` — an unsigned value stored as a signed one;
* `ofFloat` — a floating-point value truncated to a signed one, floating-point values being
  read as exact rationals;
* `mulSigned_ofNat`, … — **each of them computes the exact result** of natural numbers
  whenever that fits.

## `none` for what does not fit

In C a signed overflow is undefined, while an unsigned one wraps and a conversion may lose bits
silently.  For a computation of sizes all three are mistakes, and here all three answer `none`, so
that one theorem, that the result is not `none`, excludes them together.  The lemmas go through
natural numbers: as long as twice the exact result fits, signed and unsigned readings agree, and
the client computes in naturals.
-/

namespace CheckedInt

variable {w : ℕ}

/-- The product of two signed values. -/
def mulSigned (x y : BitVec w) : Option (BitVec w) :=
  if x.smulOverflow y then none else some (x * y)

/-- The sum of two signed values. -/
def addSigned (x y : BitVec w) : Option (BitVec w) :=
  if x.saddOverflow y then none else some (x + y)

/-- The product of two unsigned values. -/
def mulUnsigned (x y : BitVec w) : Option (BitVec w) :=
  if x.umulOverflow y then none else some (x * y)

/-- The sum of two unsigned values. -/
def addUnsigned (x y : BitVec w) : Option (BitVec w) :=
  if x.uaddOverflow y then none else some (x + y)

/-- An unsigned value stored as a signed one. -/
def ofUnsigned (x : BitVec w) : Option (BitVec w) :=
  if x.msb then none else some x

/-- A floating-point value converted to a signed one, which truncates it. -/
def ofFloat (w : ℕ) (q : ℚ) : Option (BitVec w) :=
  let i := q.num.tdiv q.den
  if -2 ^ (w - 1) ≤ i ∧ i < 2 ^ (w - 1) then some (BitVec.ofInt w i) else none

theorem lt_two_pow_pred {n : ℕ} (h : 2 * n < 2 ^ w) : n < 2 ^ (w - 1) := by
  cases w with
  | zero => omega
  | succ w =>
      rw [pow_succ] at h
      show n < 2 ^ w
      omega

theorem lt_two_pow {n : ℕ} (h : 2 * n < 2 ^ w) : n < 2 ^ w := by omega

/-- A natural number whose double fits is in the range of the signed values. -/
theorem signed_range {n : ℕ} (h : 2 * n < 2 ^ w) :
    -2 ^ (w - 1) ≤ (n : ℤ) ∧ (n : ℤ) < 2 ^ (w - 1) := by
  constructor
  · calc (-2 ^ (w - 1) : ℤ) ≤ 0 := neg_nonpos.mpr (by positivity)
      _ ≤ n := Int.natCast_nonneg n
  · exact_mod_cast lt_two_pow_pred h

theorem toInt_ofNat {n : ℕ} (h : 2 * n < 2 ^ w) : (BitVec.ofNat w n).toInt = n := by
  rw [BitVec.toInt_eq_toNat_cond, BitVec.toNat_ofNat, Nat.mod_eq_of_lt (lt_two_pow h), if_pos h]

theorem toNat_ofNat {n : ℕ} (h : 2 * n < 2 ^ w) : (BitVec.ofNat w n).toNat = n := by
  rw [BitVec.toNat_ofNat, Nat.mod_eq_of_lt (lt_two_pow h)]

theorem mulSigned_ofNat {a b : ℕ} (ha : 2 * a < 2 ^ w) (hb : 2 * b < 2 ^ w)
    (hab : 2 * (a * b) < 2 ^ w) :
    mulSigned (BitVec.ofNat w a) (BitVec.ofNat w b) = some (BitVec.ofNat w (a * b)) := by
  have hover : (BitVec.ofNat w a).smulOverflow (BitVec.ofNat w b) = false := by
    obtain ⟨hge, hlt⟩ := signed_range hab
    rw [Nat.cast_mul] at hge hlt
    rw [BitVec.smulOverflow, toInt_ofNat ha, toInt_ofNat hb, Bool.or_eq_false_iff,
      decide_eq_false_iff_not, decide_eq_false_iff_not]
    exact ⟨not_le.mpr hlt, not_lt.mpr hge⟩
  rw [mulSigned, hover, BitVec.ofNat_mul]
  rfl

theorem addSigned_ofNat {a b : ℕ} (hab : 2 * (a + b) < 2 ^ w) :
    addSigned (BitVec.ofNat w a) (BitVec.ofNat w b) = some (BitVec.ofNat w (a + b)) := by
  have ha : 2 * a < 2 ^ w := by omega
  have hb : 2 * b < 2 ^ w := by omega
  have hover : (BitVec.ofNat w a).saddOverflow (BitVec.ofNat w b) = false := by
    obtain ⟨hge, hlt⟩ := signed_range hab
    rw [Nat.cast_add] at hge hlt
    rw [BitVec.saddOverflow, toInt_ofNat ha, toInt_ofNat hb, Bool.or_eq_false_iff,
      decide_eq_false_iff_not, decide_eq_false_iff_not]
    exact ⟨not_le.mpr hlt, not_lt.mpr hge⟩
  rw [addSigned, hover, BitVec.ofNat_add]
  rfl

theorem mulUnsigned_ofNat {a b : ℕ} (ha : a < 2 ^ w) (hb : b < 2 ^ w) (hab : a * b < 2 ^ w) :
    mulUnsigned (BitVec.ofNat w a) (BitVec.ofNat w b) = some (BitVec.ofNat w (a * b)) := by
  have hover : (BitVec.ofNat w a).umulOverflow (BitVec.ofNat w b) = false := by
    simp [BitVec.umulOverflow, Nat.mod_eq_of_lt ha, Nat.mod_eq_of_lt hb, hab]
  rw [mulUnsigned, hover, BitVec.ofNat_mul]
  rfl

theorem addUnsigned_ofNat {a b : ℕ} (hab : a + b < 2 ^ w) :
    addUnsigned (BitVec.ofNat w a) (BitVec.ofNat w b) = some (BitVec.ofNat w (a + b)) := by
  have ha : a < 2 ^ w := by omega
  have hb : b < 2 ^ w := by omega
  have hover : (BitVec.ofNat w a).uaddOverflow (BitVec.ofNat w b) = false := by
    simp [BitVec.uaddOverflow, Nat.mod_eq_of_lt ha, Nat.mod_eq_of_lt hb, hab]
  rw [addUnsigned, hover, BitVec.ofNat_add]
  rfl

theorem ofUnsigned_ofNat {n : ℕ} (h : 2 * n < 2 ^ w) :
    ofUnsigned (BitVec.ofNat w n) = some (BitVec.ofNat w n) := by
  have hmsb : (BitVec.ofNat w n).msb = false := by
    rw [BitVec.msb_eq_decide, toNat_ofNat h, decide_eq_false_iff_not, not_le]
    exact lt_two_pow_pred h
  rw [ofUnsigned, hmsb]
  rfl

/-- Truncating a rational that is not negative rounds it down. -/
theorem ofFloat_eq {q : ℚ} (hq : 0 ≤ q) (h : 2 * ⌊q⌋₊ < 2 ^ w) :
    ofFloat w q = some (BitVec.ofNat w ⌊q⌋₊) := by
  have htrunc : q.num.tdiv q.den = (⌊q⌋₊ : ℤ) := by
    rw [Int.tdiv_eq_ediv_of_nonneg (Rat.num_nonneg.mpr hq), ← Rat.floor_def]
    exact (Int.natCast_floor_eq_floor hq).symm
  rw [ofFloat, htrunc, if_pos (signed_range h), BitVec.ofInt_natCast]

end CheckedInt
