import Mathlib.Data.BitVec

/-!
# Bit-fields of a word

A field of a word is `len` bits from position `pos` on, counted from the least significant
bit.  It can be read by extracting the bits, or compared in place: the word and a shifted
value agree in all bits of the field's mask.

* `mask` — the word that has exactly the bits of a field set;
* `getLsbD_mask` — its bits;
* `extract_extract` — a field of a field;
* `agree_iff_extract_eq` — **comparing in place is reading**: a word agrees with a value
  shifted to `pos` under the mask exactly if its field has that value.

## Why comparing in place needs a lemma

Code that filters on a field does not read it: it compares the whole word with a value shifted to
the position of the field, and leaves out the bits outside of the mask.  That this is the same as
reading the field holds only if the field lies within the word; `agree_iff_extract_eq` has this as
its hypothesis and needs no other, for words and fields of every width.
-/

namespace BitField

variable {w len : ℕ}

/-- The mask of a field: its bits set, all others clear. -/
def mask (w pos len : ℕ) : BitVec w := (BitVec.allOnes len).setWidth w <<< pos

theorem getLsbD_mask {pos i : ℕ} (hi : i < w) :
    (mask w pos len).getLsbD i = decide (pos ≤ i ∧ i < pos + len) := by
  by_cases hle : pos ≤ i
  · have hiff : i - pos < len ↔ i < pos + len := by omega
    simp [mask, hi, hle, hiff, Nat.not_lt.mpr hle]
  · simp [mask, hi, hle, Nat.lt_of_not_ge hle]

/-- A field of a field is a field of the word. -/
theorem extract_extract {pos pos' len' : ℕ} (hle : pos' + len' ≤ len) (word : BitVec w) :
    (word.extractLsb' pos len).extractLsb' pos' len' = word.extractLsb' (pos + pos') len' := by
  apply BitVec.eq_of_getLsbD_eq
  intro i hi
  have hin : pos' + i < len := by omega
  simp [hi, hin, Nat.add_assoc]

/-- **Comparing a field in place is reading it.** -/
theorem agree_iff_extract_eq {pos : ℕ} (hfit : pos + len ≤ w) (word : BitVec w)
    (v : BitVec len) :
    (∀ i < w, (mask w pos len).getLsbD i = true →
        word.getLsbD i = (v.setWidth w <<< pos).getLsbD i) ↔
      word.extractLsb' pos len = v := by
  constructor
  · intro hagree
    apply BitVec.eq_of_getLsbD_eq
    intro i hi
    have hpos : pos + i < w := by omega
    have hin : (mask w pos len).getLsbD (pos + i) = true := by
      rw [getLsbD_mask hpos]
      simpa using hi
    have hbit := hagree (pos + i) hpos hin
    have hnot : ¬pos + i < pos := by omega
    simpa [hi, hpos, hnot] using hbit
  · rintro rfl i hi hin
    rw [getLsbD_mask hi, decide_eq_true_eq] at hin
    obtain ⟨hle, hlt⟩ := hin
    have hlen : i - pos < len := by omega
    simp [hi, hlen, Nat.not_lt.mpr hle, Nat.add_sub_cancel' hle]

end BitField
