import StepPipeline.Kernel
import StepPipeline.Measurement
import StepPipeline.Library.CheckedInt
import Mathlib.Algebra.Order.Floor.Div

/-!
# Payload sizes

`step_mes_sz_payload` computes the size of a payload from its header, `step_mes_validate`
compares it with the payload length.

* `stepMesSzPayload`, `stepMesValidate` — the code.  An integer operation whose exact result
  does not fit is a `none`; floating-point values are read as exact rationals;
* `rawSize`, `trueSize` — **the size a header describes**, before and after encoding;
* `payload_size_sound` — the size computed is never below it, and the code never overflows;
* `accepts_sufficient_iff` — **where it is above**: BASE45 is estimated by a factor.

## What the sizes are compared with

`trueSize` is written from the documentation of the header fields, in natural numbers and with no
upper bound: samples, bytes of the C type, elements of the vector, timestamp, and then the
encoding, which for BASE45 is three characters for two bytes and two for a last odd one.  The code
computes in three integer types and converts between them silently.  Its integer operations are
checked ones here, so that "the code never overflows" is the statement that it never answers
`none`, and the bounds that show it are those of the header: at most 2^14 samples, of at most four
elements with at most 16 bytes each, and 8 bytes of timestamp.

A header whose C type has no fixed size, or whose sample count is arbitrary, describes no size at
all.  The code answers -1 there, and `step_mes_validate` accepts; whether such a payload is long
enough is nothing a header can tell.
-/

namespace StepPipeline

open CheckedInt

/-- `-ENOSPC`. -/
def negEnospc : ℤ := -28

/-! ### The fields -/

/-- `enum step_mes_unit_ctype`; all values without a fixed size are `other`. -/
inductive StepMesUnitCtype where
  | ieee754Float32
  | ieee754Float64
  | ieee754Float128
  | s8
  | s16
  | s32
  | s64
  | s128
  | u8
  | u16
  | u32
  | u64
  | u128
  | bool
  | complex32
  | complex64
  | rangUnitInterval32
  | rangUnitInterval64
  | rangPercent32
  | rangPercent64
  | other (value : BitVec 8)
  deriving DecidableEq, Repr

/-- The `ctype` member read as the enumeration. -/
def StepMesUnitCtype.ofBits (bits : BitVec 8) : StepMesUnitCtype :=
  match bits.toNat with
  | 0x10 => .ieee754Float32
  | 0x11 => .ieee754Float64
  | 0x12 => .ieee754Float128
  | 0x13 => .s8
  | 0x14 => .s16
  | 0x15 => .s32
  | 0x16 => .s64
  | 0x17 => .s128
  | 0x18 => .u8
  | 0x19 => .u16
  | 0x1A => .u32
  | 0x1B => .u64
  | 0x1C => .u128
  | 0x1D => .bool
  | 0x30 => .complex32
  | 0x31 => .complex64
  | 0x80 => .rangUnitInterval32
  | 0x81 => .rangUnitInterval64
  | 0x82 => .rangPercent32
  | 0x83 => .rangPercent64
  | _ => .other bits

/-- `enum step_mes_timestamp`. -/
inductive StepMesTimestamp where
  | none
  | epoch32
  | epoch64
  | uptimeMs32
  | uptimeMs64
  | uptimeUs64
  | reserved (value : BitVec 3)
  deriving DecidableEq, Repr

/-- The `timestamp` member read as the enumeration. -/
def StepMesTimestamp.ofBits (bits : BitVec 3) : StepMesTimestamp :=
  match bits.toNat with
  | 0 => .none
  | 1 => .epoch32
  | 2 => .epoch64
  | 3 => .uptimeMs32
  | 4 => .uptimeMs64
  | 5 => .uptimeUs64
  | _ => .reserved bits

/-- `enum step_mes_encoding`. -/
inductive StepMesEncoding where
  | none
  | base64
  | base45
  | reserved (value : BitVec 4)
  deriving DecidableEq, Repr

/-- The `encoding` member read as the enumeration. -/
def StepMesEncoding.ofBits (bits : BitVec 4) : StepMesEncoding :=
  match bits.toNat with
  | 0 => .none
  | 1 => .base64
  | 2 => .base45
  | _ => .reserved bits

/-! ### The code -/

/-- `step_mes_sz_ceil`. -/
def stepMesSzCeil (n : ℚ) : Option (BitVec 32) :=
  (ofFloat 32 n).bind fun i => if n = i.toInt then some i else addSigned i 1#32

/-- The loop of `step_mes_sz_pow2`, with `e` rounds to go. -/
def stepMesSzPow2Loop : ℕ → BitVec 32 → Option (BitVec 32)
  | 0, x => some x
  | e + 1, x => (mulUnsigned x 2#32).bind (stepMesSzPow2Loop e)

/-- `step_mes_sz_pow2`. -/
def stepMesSzPow2 (e : BitVec 32) : Option (BitVec 32) := stepMesSzPow2Loop e.toNat 1#32

/-- `step_mes_sz_timestamp`. -/
def stepMesSzTimestamp : StepMesTimestamp → BitVec 32
  | .none => 0
  | .epoch32 | .uptimeMs32 => 4
  | .epoch64 | .uptimeMs64 | .uptimeUs64 => 8
  -- no case of the switch: `len` keeps its 0
  | .reserved _ => 0

/-- `step_mes_sz_ctype`. -/
def stepMesSzCtype : StepMesUnitCtype → BitVec 32
  | .s8 | .u8 | .bool => 1
  | .s16 | .u16 => 2
  | .ieee754Float32 | .s32 | .u32 | .rangUnitInterval32 | .rangPercent32 => 4
  | .ieee754Float64 | .s64 | .u64 | .complex32 | .rangUnitInterval64 | .rangPercent64 => 8
  | .ieee754Float128 | .s128 | .u128 | .complex64 => 16
  | .other _ => 0

/-- `step_mes_sz_payload` from the C type to the timestamp: the length before encoding, for `cnt`
samples of `tmp` bytes.  `tmp * cnt` is an unsigned product that is added to a signed length,
hence the conversion in between. -/
def stepMesSzRaw (hdr : StepMesHeader) (tmp cnt : BitVec 32) : Option (BitVec 32) :=
  ((mulUnsigned tmp cnt).bind ofUnsigned).bind fun len =>
    (if hdr.vecSz ≠ 0 then mulSigned len (1#32 + hdr.vecSz.setWidth 32) else some len).bind
      fun len =>
        if hdr.timestamp ≠ 0 then
          (addUnsigned len (stepMesSzTimestamp (.ofBits hdr.timestamp))).bind ofUnsigned
        else some len

/-- The last switch of `step_mes_sz_payload`. -/
def stepMesSzEncoded (encoding : StepMesEncoding) (len : BitVec 32) : Option (BitVec 32) :=
  match encoding with
  | .base64 => (stepMesSzCeil (len.toInt / 3)).bind fun n => mulSigned n 4#32
  | .base45 => if len = 1#32 then some 2#32 else stepMesSzCeil (len.toInt * (167 / 100))
  | .none | .reserved _ => some len

/-- `step_mes_sz_payload`. -/
def stepMesSzPayload (hdr : StepMesHeader) : Option (BitVec 32) :=
  if hdr.samples.toNat < 15 then
    (stepMesSzPow2 (hdr.samples.setWidth 32)).bind fun cnt =>
      let tmp := stepMesSzCtype (.ofBits hdr.ctype)
      if tmp ≠ 0 then
        (stepMesSzRaw hdr tmp cnt).bind (stepMesSzEncoded (.ofBits hdr.encoding))
      else some (-1#32)
  else some (-1#32)

/-- `step_mes_validate`. -/
def stepMesValidate (mes : Option StepMeasurement) : Option ℤ :=
  match mes with
  | none => some negEinval
  | some mes =>
      (stepMesSzPayload mes.header).map fun sz =>
        if 0 ≤ sz.toInt ∧ (mes.header.srclenLen.toNat : ℤ) < sz.toInt then negEnospc else 0

/-! ### The size a header describes -/

/-- The bytes of a C type, if it has a fixed size. -/
def StepMesUnitCtype.bytes : StepMesUnitCtype → Option ℕ
  | s8 | u8 | bool => some 1
  | s16 | u16 => some 2
  | ieee754Float32 | s32 | u32 | rangUnitInterval32 | rangPercent32 => some 4
  | ieee754Float64 | s64 | u64 | rangUnitInterval64 | rangPercent64 => some 8
  | ieee754Float128 | s128 | u128 => some 16
  -- two parts of the given width
  | complex32 => some (2 * 4)
  | complex64 => some (2 * 8)
  | other _ => none

/-- The bytes of a timestamp. -/
def StepMesTimestamp.bytes : StepMesTimestamp → ℕ
  | epoch32 | uptimeMs32 => 4
  | epoch64 | uptimeMs64 | uptimeUs64 => 8
  | none | reserved _ => 0

/-- The bytes of an encoded payload: BASE64 writes 3 bytes as 4, BASE45 writes 2 bytes as 3
and a single one as 2. -/
def StepMesEncoding.bytes (raw : ℕ) : StepMesEncoding → ℕ
  | base64 => 4 * (raw ⌈/⌉ 3)
  | base45 => 3 * (raw / 2) + 2 * (raw % 2)
  | none | reserved _ => raw

/-- **The size before encoding**, if the header determines it. -/
def rawSize (hdr : StepMesHeader) : Option ℕ :=
  if hdr.samples = 15 then none
  else (StepMesUnitCtype.ofBits hdr.ctype).bytes.map fun bytes =>
    2 ^ hdr.samples.toNat * bytes * (1 + hdr.vecSz.toNat) +
      (StepMesTimestamp.ofBits hdr.timestamp).bytes

/-- **The size of the payload** a header describes, if it determines it.  This is the
specification; the code computes something that is not below it. -/
def trueSize (hdr : StepMesHeader) : Option ℕ :=
  (rawSize hdr).map (StepMesEncoding.bytes · (.ofBits hdr.encoding))

/-! ### The size computed -/

/-- The size that is computed for `raw` bytes: BASE45 is estimated by a factor of 1.67. -/
def StepMesEncoding.computed (raw : ℕ) : StepMesEncoding → ℕ
  | base45 => if raw = 1 then 2 else (167 * raw) ⌈/⌉ 100
  | encoding => encoding.bytes raw

/-- `step_mes_sz_ceil` rounds up. -/
theorem stepMesSzCeil_eq {q : ℚ} (hq : 0 ≤ q) (hlt : q < 2 ^ 30) :
    stepMesSzCeil q = some (BitVec.ofNat 32 ⌈q⌉₊) := by
  have hfloor : ⌊q⌋₊ < 2 ^ 30 := (Nat.floor_lt hq).mpr (by exact_mod_cast hlt)
  have hfits : 2 * ⌊q⌋₊ < 2 ^ 32 := by omega
  rw [stepMesSzCeil, ofFloat_eq hq hfits, Option.bind_some, toInt_ofNat hfits, Int.cast_natCast]
  by_cases heq : q = ⌊q⌋₊
  · have hceil : ⌈q⌉₊ = ⌊q⌋₊ := by
      rw [heq, Nat.ceil_natCast, Nat.floor_natCast]
    rw [if_pos heq, hceil]
  · have hceil : ⌈q⌉₊ = ⌊q⌋₊ + 1 := by
      refine (Nat.ceil_eq_iff (Nat.succ_ne_zero _)).mpr ⟨?_, ?_⟩
      · exact lt_of_le_of_ne (Nat.floor_le hq) (Ne.symm heq)
      · exact_mod_cast (Nat.lt_floor_add_one q).le
    rw [if_neg heq, hceil]
    exact addSigned_ofNat (by omega)

/-- A quotient of natural numbers, rounded up. -/
theorem ceil_div_eq (a : ℕ) {b : ℕ} (hb : 0 < b) : ⌈(a : ℚ) / b⌉₊ = a ⌈/⌉ b := by
  have hpos : (0 : ℚ) < b := Nat.cast_pos.mpr hb
  apply eq_of_forall_ge_iff
  intro c
  rw [Nat.ceil_le, ceilDiv_le_iff_le_mul hb, div_le_iff₀ hpos, mul_comm]
  exact_mod_cast Iff.rfl

/-- `step_mes_sz_pow2` is the power of two, as long as that fits. -/
theorem stepMesSzPow2_eq {e : ℕ} (he : e < 31) :
    stepMesSzPow2 (BitVec.ofNat 32 e) = some (BitVec.ofNat 32 (2 ^ e)) := by
  have hloop : ∀ e k, e + k < 32 → stepMesSzPow2Loop e (BitVec.ofNat 32 (2 ^ k)) =
      some (BitVec.ofNat 32 (2 ^ (e + k))) := by
    intro e
    induction e with
    | zero => intro k _; rw [Nat.zero_add]; rfl
    | succ e ih =>
        intro k hk
        have hlt : 2 ^ k * 2 < 2 ^ 32 := by
          rw [← pow_succ]
          exact Nat.pow_lt_pow_right (by omega) (by omega)
        rw [stepMesSzPow2Loop, mulUnsigned_ofNat (by omega) (by omega) hlt, Option.bind_some,
          ← pow_succ, ih (k + 1) (by omega)]
        congr 3
        omega
  rw [stepMesSzPow2, toNat_ofNat (by omega)]
  exact hloop e 0 (by omega)

theorem stepMesSzTimestamp_eq (ts : StepMesTimestamp) :
    stepMesSzTimestamp ts = BitVec.ofNat 32 ts.bytes ∧ ts.bytes ≤ 8 := by
  cases ts <;> exact ⟨rfl, by simp [StepMesTimestamp.bytes]⟩

theorem stepMesSzCtype_eq (ctype : StepMesUnitCtype) :
    stepMesSzCtype ctype = BitVec.ofNat 32 (ctype.bytes.getD 0) := by
  cases ctype <;> rfl

theorem StepMesUnitCtype.bytes_range {ctype : StepMesUnitCtype} {bytes : ℕ}
    (h : ctype.bytes = some bytes) : 0 < bytes ∧ bytes ≤ 16 := by
  cases ctype <;> simp only [StepMesUnitCtype.bytes, Option.some_inj, reduceCtorEq] at h <;> omega

/-- **The length before encoding** is the raw size, without overflow. -/
theorem stepMesSzRaw_eq (hdr : StepMesHeader) {bytes n : ℕ} (hbytes : bytes ≤ 16)
    (hn : n ≤ 2 ^ 14) :
    ∃ raw, raw = n * bytes * (1 + hdr.vecSz.toNat) +
        (StepMesTimestamp.ofBits hdr.timestamp).bytes ∧ raw ≤ 1048584 ∧
      stepMesSzRaw hdr (BitVec.ofNat 32 bytes) (BitVec.ofNat 32 n) =
        some (BitVec.ofNat 32 raw) := by
  have hvec := hdr.vecSz.isLt
  obtain ⟨hts, htsle⟩ := stepMesSzTimestamp_eq (.ofBits hdr.timestamp)
  have hprod : n * bytes ≤ 2 ^ 14 * 16 := Nat.mul_le_mul hn hbytes
  have hvector : n * bytes * (1 + hdr.vecSz.toNat) ≤ 2 ^ 14 * 16 * 4 :=
    Nat.mul_le_mul hprod (by omega)
  refine ⟨_, rfl, by omega, ?_⟩
  have hlen : (mulUnsigned (BitVec.ofNat 32 bytes) (BitVec.ofNat 32 n)).bind ofUnsigned =
      some (BitVec.ofNat 32 (n * bytes)) := by
    rw [mulUnsigned_ofNat (by omega) (by omega) (by rw [Nat.mul_comm]; omega), Option.bind_some,
      Nat.mul_comm bytes, ofUnsigned_ofNat (by omega)]
  have hcomponents : (if hdr.vecSz ≠ 0 then
        mulSigned (BitVec.ofNat 32 (n * bytes)) (1#32 + hdr.vecSz.setWidth 32)
      else some (BitVec.ofNat 32 (n * bytes))) =
      some (BitVec.ofNat 32 (n * bytes * (1 + hdr.vecSz.toNat))) := by
    by_cases hzero : hdr.vecSz = 0
    · simp [hzero]
    · have hcount : 1#32 + hdr.vecSz.setWidth 32 = BitVec.ofNat 32 (1 + hdr.vecSz.toNat) := by
        rw [BitVec.ofNat_add, BitVec.ofNat_toNat]
      rw [if_pos hzero, hcount]
      exact mulSigned_ofNat (by omega) (by omega) (by omega)
  have htimestamp : ∀ len, len ≤ 2 ^ 14 * 16 * 4 →
      (if hdr.timestamp ≠ 0 then
        (addUnsigned (BitVec.ofNat 32 len)
          (stepMesSzTimestamp (.ofBits hdr.timestamp))).bind ofUnsigned
      else some (BitVec.ofNat 32 len)) =
      some (BitVec.ofNat 32 (len + (StepMesTimestamp.ofBits hdr.timestamp).bytes)) := by
    intro len hle
    by_cases hzero : hdr.timestamp = 0
    · simp [hzero, StepMesTimestamp.ofBits, StepMesTimestamp.bytes]
    · rw [if_pos hzero, hts, addUnsigned_ofNat (by omega), Option.bind_some]
      exact ofUnsigned_ofNat (by omega)
  rw [stepMesSzRaw, hlen, Option.bind_some, hcomponents, Option.bind_some]
  exact htimestamp _ hvector

/-- **The length after encoding**, without overflow. -/
theorem stepMesSzEncoded_eq (encoding : StepMesEncoding) {raw : ℕ} (hraw : raw ≤ 1048584) :
    stepMesSzEncoded encoding (BitVec.ofNat 32 raw) =
        some (BitVec.ofNat 32 (encoding.computed raw)) ∧
      encoding.computed raw ≤ 2 ^ 22 := by
  have hint : ((BitVec.ofNat 32 raw).toInt : ℚ) = raw := by
    rw [toInt_ofNat (by omega), Int.cast_natCast]
  have hrawq : (raw : ℚ) ≤ 1048584 := by exact_mod_cast hraw
  cases encoding with
  | none => exact ⟨rfl, by simp only [StepMesEncoding.computed, StepMesEncoding.bytes]; omega⟩
  | reserved _ =>
      exact ⟨rfl, by simp only [StepMesEncoding.computed, StepMesEncoding.bytes]; omega⟩
  | base64 =>
      have hthird : raw ⌈/⌉ 3 ≤ 349528 := (ceilDiv_le_iff_le_mul (by omega)).mpr (by omega)
      have hceil : stepMesSzCeil ((raw : ℚ) / 3) = some (BitVec.ofNat 32 (raw ⌈/⌉ 3)) := by
        have hround := ceil_div_eq raw (Nat.succ_pos 2)
        rw [show ((2 + 1 : ℕ) : ℚ) = 3 by norm_num] at hround
        rw [stepMesSzCeil_eq (by positivity) (by linarith), hround]
      have hbytes : 4 * (raw ⌈/⌉ 3) ≤ 2 ^ 22 :=
        (Nat.mul_le_mul_left 4 hthird).trans (by decide)
      refine ⟨?_, hbytes⟩
      rw [stepMesSzEncoded, hint, hceil, Option.bind_some]
      simp only [StepMesEncoding.computed, StepMesEncoding.bytes]
      rw [Nat.mul_comm 4]
      exact mulSigned_ofNat (by omega) (by omega) (by omega)
  | base45 =>
      have hestimate : (167 * raw) ⌈/⌉ 100 ≤ 2 ^ 22 :=
        (ceilDiv_le_iff_le_mul (by omega)).mpr (by omega)
      have hone : BitVec.ofNat 32 raw = 1#32 ↔ raw = 1 := by
        rw [← BitVec.toNat_inj, toNat_ofNat (by omega)]
        rfl
      simp only [stepMesSzEncoded, StepMesEncoding.computed, hone]
      split
      · exact ⟨rfl, by omega⟩
      · refine ⟨?_, hestimate⟩
        have hquot : (raw : ℚ) * (167 / 100) = (167 * raw : ℕ) / (100 : ℕ) := by
          push_cast
          ring
        rw [hint, stepMesSzCeil_eq (by positivity) (by linarith), hquot, ceil_div_eq _ (by omega)]

/-- **What `step_mes_sz_payload` returns**: -1 where the header does not determine a size,
and the size computed from the raw one where it does. -/
theorem stepMesSzPayload_cases (hdr : StepMesHeader) :
    (hdr.samples = 15 ∨ (StepMesUnitCtype.ofBits hdr.ctype).bytes = none) ∧
        rawSize hdr = none ∧ stepMesSzPayload hdr = some (-1#32) ∨
      ∃ raw, ¬(hdr.samples = 15 ∨ (StepMesUnitCtype.ofBits hdr.ctype).bytes = none) ∧
        rawSize hdr = some raw ∧ 0 < raw ∧
        (StepMesEncoding.ofBits hdr.encoding).computed raw ≤ 2 ^ 22 ∧
        stepMesSzPayload hdr =
          some (BitVec.ofNat 32 ((StepMesEncoding.ofBits hdr.encoding).computed raw)) := by
  by_cases hsamples : hdr.samples = 15
  · left
    exact ⟨Or.inl hsamples, by simp [rawSize, hsamples], by simp [stepMesSzPayload, hsamples]⟩
  · have hlt : hdr.samples.toNat < 15 := by
      have hbound := hdr.samples.isLt
      have hne : hdr.samples.toNat ≠ 15 := fun h => hsamples (BitVec.eq_of_toNat_eq h)
      omega
    have hpow : 2 ^ hdr.samples.toNat ≤ 2 ^ 14 := Nat.pow_le_pow_right (by omega) (by omega)
    rw [rawSize, if_neg hsamples, stepMesSzPayload, if_pos hlt, ← BitVec.ofNat_toNat,
      stepMesSzPow2_eq (by omega), Option.bind_some, stepMesSzCtype_eq]
    cases hctype : (StepMesUnitCtype.ofBits hdr.ctype).bytes with
    | none => exact Or.inl ⟨Or.inr rfl, rfl, rfl⟩
    | some bytes =>
        right
        obtain ⟨hpos, hle⟩ := StepMesUnitCtype.bytes_range hctype
        obtain ⟨raw, hraw, hrawle, hcode⟩ := stepMesSzRaw_eq hdr hle hpow
        obtain ⟨hencoded, hbound⟩ := stepMesSzEncoded_eq (.ofBits hdr.encoding) hrawle
        have hne : BitVec.ofNat 32 bytes ≠ 0#32 := by
          intro h
          have hzero := congrArg BitVec.toNat h
          rw [toNat_ofNat (by omega)] at hzero
          exact hpos.ne' hzero
        refine ⟨raw, fun h => h.elim hsamples (Option.some_ne_none bytes), ?_, ?_, hbound, ?_⟩
        · rw [hraw]
          rfl
        · rw [hraw]
          have hprod : 0 < 2 ^ hdr.samples.toNat * bytes * (1 + hdr.vecSz.toNat) := by positivity
          omega
        · have htmp : BitVec.ofNat 32 ((some bytes).getD 0) ≠ 0 := hne
          rw [if_pos htmp]
          show (stepMesSzRaw hdr (BitVec.ofNat 32 bytes) _).bind _ = _
          rw [hcode, Option.bind_some, hencoded]

/-- The size computed is never below the true one. -/
theorem StepMesEncoding.bytes_le_computed (encoding : StepMesEncoding) (raw : ℕ) :
    encoding.bytes raw ≤ encoding.computed raw := by
  cases encoding with
  | base45 =>
      simp only [bytes, computed]
      split
      · omega
      · rename_i hone
        by_contra hlt
        have hle : 167 * raw ≤ 100 * ((167 * raw) ⌈/⌉ 100) :=
          (ceilDiv_le_iff_le_mul (Nat.succ_pos 99)).mp le_rfl
        omega
  | none | reserved _ | base64 => exact le_rfl

theorem trueSize_eq_none_iff (hdr : StepMesHeader) :
    trueSize hdr = none ↔
      hdr.samples = 15 ∨ (StepMesUnitCtype.ofBits hdr.ctype).bytes = none := by
  unfold trueSize rawSize
  split
  · simp_all
  · simp_all

/-- What `step_mes_validate` answers for a size that has been computed. -/
theorem stepMesValidate_eq {mes : StepMeasurement} {n : ℕ} (hn : n ≤ 2 ^ 22)
    (h : stepMesSzPayload mes.header = some (BitVec.ofNat 32 n)) :
    stepMesValidate (some mes) =
      some (if mes.header.srclenLen.toNat < n then negEnospc else 0) := by
  have hcond : 0 ≤ (BitVec.ofNat 32 n).toInt ∧
      (mes.header.srclenLen.toNat : ℤ) < (BitVec.ofNat 32 n).toInt ↔
      mes.header.srclenLen.toNat < n := by
    rw [toInt_ofNat (by omega)]
    omega
  simp only [stepMesValidate, h, Option.map_some, hcond]

/-- **Payload validation is sound.**  For every header the size is computed without
overflow; it is -1 exactly where the header determines no size; elsewhere it is not below
the true size, and equal to it except for BASE45.  Hence a measurement that is found valid
has a payload length of at least the true size. -/
theorem payload_size_sound (hdr : StepMesHeader) :
    ∃ len, stepMesSzPayload hdr = some len ∧
      (len.toInt = -1 ↔
        hdr.samples = 15 ∨ (StepMesUnitCtype.ofBits hdr.ctype).bytes = none) ∧
      (trueSize hdr = none ↔
        hdr.samples = 15 ∨ (StepMesUnitCtype.ofBits hdr.ctype).bytes = none) ∧
      ∀ size, trueSize hdr = some size →
        (size : ℤ) ≤ len.toInt ∧
          (StepMesEncoding.ofBits hdr.encoding ≠ .base45 → len.toInt = size) ∧
          ∀ payload, stepMesValidate (some ⟨hdr, payload⟩) = some 0 →
            size ≤ hdr.srclenLen.toNat := by
  rcases stepMesSzPayload_cases hdr with
    ⟨hopen, hraw, hcode⟩ | ⟨raw, hsized, hraw, -, hbound, hcode⟩
  · refine ⟨_, hcode, iff_of_true (by decide) hopen, trueSize_eq_none_iff hdr, fun size hsize => ?_⟩
    rw [trueSize, hraw] at hsize
    cases hsize
  · set encoding := StepMesEncoding.ofBits hdr.encoding with hencoding
    have hint : (BitVec.ofNat 32 (encoding.computed raw)).toInt = encoding.computed raw :=
      toInt_ofNat (by omega)
    refine ⟨_, hcode, iff_of_false (by rw [hint]; omega) hsized, trueSize_eq_none_iff hdr,
      fun size hsize => ?_⟩
    rw [trueSize, hraw] at hsize
    obtain rfl : encoding.bytes raw = size := Option.some.inj hsize
    have hle := encoding.bytes_le_computed raw
    rw [hint]
    refine ⟨by exact_mod_cast hle, fun hother => ?_, fun payload hvalid => ?_⟩
    · cases henc : encoding with
      | base45 => exact absurd henc hother
      | none | reserved _ | base64 => rfl
    · have hcode' : stepMesSzPayload (StepMeasurement.mk hdr payload).header =
          some (BitVec.ofNat 32 (encoding.computed raw)) := hcode
      rw [stepMesValidate_eq hbound hcode', Option.some_inj] at hvalid
      by_contra hlt
      have hsmall : hdr.srclenLen.toNat < encoding.computed raw := by omega
      rw [if_pos hsmall] at hvalid
      exact absurd hvalid (by decide)

/-! ### Payloads that would do -/

/-- **A sufficient payload is found valid.** This is the converse of soundness: nothing that would
do is refused. -/
def AcceptsSufficient (mes : StepMeasurement) : Prop :=
  ∀ size, trueSize mes.header = some size → size ≤ mes.header.srclenLen.toNat →
    stepMesValidate (some mes) = some 0

/-- **A BASE45 payload below the estimate**: the payload length is sufficient, but below
1.67 times the raw size. -/
def BelowEstimate (mes : StepMeasurement) : Prop :=
  StepMesEncoding.ofBits mes.header.encoding = .base45 ∧
    ∃ raw, rawSize mes.header = some raw ∧
      StepMesEncoding.base45.bytes raw ≤ mes.header.srclenLen.toNat ∧
      100 * mes.header.srclenLen.toNat < 167 * raw

/-- **Sufficient payloads are found valid, exactly**: all of them but the BASE45 payloads
below the estimate. -/
theorem accepts_sufficient_iff (mes : StepMeasurement) :
    AcceptsSufficient mes ↔ ¬BelowEstimate mes := by
  rcases stepMesSzPayload_cases mes.header with ⟨-, hraw, -⟩ | ⟨raw, -, hraw, hpos, hbound, hcode⟩
  · refine iff_of_true (fun size hsize => ?_) fun hbelow => ?_
    · rw [trueSize, hraw] at hsize
      cases hsize
    · obtain ⟨-, raw, hsome, -⟩ := hbelow
      rw [hraw] at hsome
      cases hsome
  · set encoding := StepMesEncoding.ofBits mes.header.encoding with hencoding
    set len := mes.header.srclenLen.toNat with hlen
    have hvalid : stepMesValidate (some mes) = some 0 ↔ encoding.computed raw ≤ len := by
      rw [stepMesValidate_eq hbound hcode, Option.some_inj]
      by_cases hlt : len < encoding.computed raw
      · rw [if_pos hlt]
        exact iff_of_false (by decide) (not_le.mpr hlt)
      · rw [if_neg hlt]
        exact iff_of_true rfl (not_lt.mp hlt)
    have haccepts : AcceptsSufficient mes ↔
        (encoding.bytes raw ≤ len → encoding.computed raw ≤ len) := by
      rw [AcceptsSufficient, hvalid, trueSize, hraw]
      simp only [Option.map_some, Option.some_inj, forall_eq', ← hencoding, ← hlen]
    have hbelow : BelowEstimate mes ↔
        encoding = .base45 ∧ StepMesEncoding.base45.bytes raw ≤ len ∧ 100 * len < 167 * raw := by
      rw [BelowEstimate, hraw]
      simp only [Option.some_inj, exists_eq_left', ← hencoding, ← hlen]
    rw [haccepts, hbelow]
    cases henc : encoding with
    | base45 =>
        have hround : (167 * raw) ⌈/⌉ 100 ≤ len ↔ 167 * raw ≤ 100 * len :=
          ceilDiv_le_iff_le_mul (Nat.succ_pos 99)
        simp only [StepMesEncoding.computed, StepMesEncoding.bytes, true_and, not_and, not_lt]
        split
        · subst raw
          omega
        · rw [hround]
    | none | reserved _ | base64 =>
        exact iff_of_true id fun h => by cases h.1

/-- **Too strict an estimate**: two bytes are three in BASE45, which is not found valid. -/
theorem sufficient_refused :
    let mes : StepMeasurement := ⟨⟨0x00100000, 0x14000000, 3⟩, []⟩
    trueSize mes.header = some 3 ∧ mes.header.srclenLen.toNat = 3 ∧
      stepMesValidate (some mes) = some negEnospc ∧ ¬AcceptsSufficient mes := by
  intro mes
  have hsize : trueSize mes.header = some 3 := by decide
  have hrefused : stepMesValidate (some mes) = some negEnospc := by decide +kernel
  refine ⟨hsize, rfl, hrefused, fun h => ?_⟩
  have hzero := hrefused.symm.trans (h 3 hsize le_rfl)
  exact absurd (Option.some.inj hzero) (by decide)

end StepPipeline
