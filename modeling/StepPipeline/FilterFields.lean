import StepPipeline.Filter
import StepPipeline.Library.BitField

/-!
# Filters on the fields of the filter word

The header describes the filter word three times: by the bit-fields of
`struct step_mes_header`, by the `STEP_MES_MASK_*` macros, and, for a filter entry, by a
match value and a mask of ignored bits.

* the `STEP_MES_MASK_*` macros, a position and a mask for each field;
* `MesField` — the fields, with their macros and the bit-fields they stand for;
* `FieldTest` — a field and the value it is to have, and the entry that tests it;
* `mask_filters_test_fields` — **the three agree**: a chain of such entries accepts
  a measurement exactly if every field has its value.

## Three descriptions of one word

None of the three is defined by another one: the bit-fields follow from the declaration of the
structure and the layout the header file documents, the macros are numbers, and an entry compares
words.  Each is written down here from its own place in the sources, and the agreement is proved:
of macros and bit-fields field by field (`mask_eq`, `read_eq`), of entries and bit-fields by the
general lemma on comparing in place.  A macro shifted by one bit too many would break the first,
an inverted ignore mask the second.
-/

namespace StepPipeline

/-! ### The macros -/

/-- `STEP_MES_MASK_FULL_TYPE_POS`. -/
def stepMesMaskFullTypePos : ℕ := 0

/-- `STEP_MES_MASK_FULL_TYPE`. -/
def stepMesMaskFullType : BitVec 32 := 0xFFFF#32 <<< stepMesMaskFullTypePos

/-- `STEP_MES_MASK_BASE_TYPE_POS`. -/
def stepMesMaskBaseTypePos : ℕ := 0

/-- `STEP_MES_MASK_BASE_TYPE`. -/
def stepMesMaskBaseType : BitVec 32 := 0xFF#32 <<< stepMesMaskBaseTypePos

/-- `STEP_MES_MASK_EXT_TYPE_POS`. -/
def stepMesMaskExtTypePos : ℕ := 8

/-- `STEP_MES_MASK_EXT_TYPE`. -/
def stepMesMaskExtType : BitVec 32 := 0xFF#32 <<< stepMesMaskExtTypePos

/-- `STEP_MES_MASK_FLAGS_POS`. -/
def stepMesMaskFlagsPos : ℕ := 16

/-- `STEP_MES_MASK_FLAGS`. -/
def stepMesMaskFlags : BitVec 32 := 0xFFFF#32 <<< stepMesMaskFlagsPos

/-- `STEP_MES_MASK_FORMAT_POS`. -/
def stepMesMaskFormatPos : ℕ := 16

/-- `STEP_MES_MASK_FORMAT`. -/
def stepMesMaskFormat : BitVec 32 := 0x7#32 <<< stepMesMaskFormatPos

/-- `STEP_MES_MASK_ENCODING_POS`. -/
def stepMesMaskEncodingPos : ℕ := 19

/-- `STEP_MES_MASK_ENCODING`. -/
def stepMesMaskEncoding : BitVec 32 := 0xF#32 <<< stepMesMaskEncodingPos

/-- `STEP_MES_MASK_COMPRESSION_POS`. -/
def stepMesMaskCompressionPos : ℕ := 23

/-- `STEP_MES_MASK_COMPRESSION`. -/
def stepMesMaskCompression : BitVec 32 := 0x7#32 <<< stepMesMaskCompressionPos

/-- `STEP_MES_MASK_TIMESTAMP_POS`. -/
def stepMesMaskTimestampPos : ℕ := 26

/-- `STEP_MES_MASK_TIMESTAMP`. -/
def stepMesMaskTimestamp : BitVec 32 := 0x7#32 <<< stepMesMaskTimestampPos

/-! ### The fields -/

/-- The fields that have a mask. -/
inductive MesField where
  | fullType
  | baseType
  | extType
  | flags
  | format
  | encoding
  | compression
  | timestamp
  deriving DecidableEq, Repr

namespace MesField

/-- The `_POS` macro of a field. -/
def pos : MesField → ℕ
  | fullType => stepMesMaskFullTypePos
  | baseType => stepMesMaskBaseTypePos
  | extType => stepMesMaskExtTypePos
  | flags => stepMesMaskFlagsPos
  | format => stepMesMaskFormatPos
  | encoding => stepMesMaskEncodingPos
  | compression => stepMesMaskCompressionPos
  | timestamp => stepMesMaskTimestampPos

/-- The mask macro of a field. -/
def mask : MesField → BitVec 32
  | fullType => stepMesMaskFullType
  | baseType => stepMesMaskBaseType
  | extType => stepMesMaskExtType
  | flags => stepMesMaskFlags
  | format => stepMesMaskFormat
  | encoding => stepMesMaskEncoding
  | compression => stepMesMaskCompression
  | timestamp => stepMesMaskTimestamp

/-- The width of a field in the structure. -/
def width : MesField → ℕ
  | fullType => 8 + 8
  | baseType => 8
  | extType => 8
  | flags => 16
  | format => 3
  | encoding => 4
  | compression => 3
  | timestamp => 3

/-- The field of the structure.  The full type is the extended type above the base type; it is the
one macro that stands for no single member of the structure. -/
def read (hdr : StepMesHeader) : (field : MesField) → BitVec field.width
  | fullType => hdr.extType ++ hdr.baseType
  | baseType => hdr.baseType
  | extType => hdr.extType
  | flags => hdr.flagsBits
  | format => hdr.dataFormat
  | encoding => hdr.encoding
  | compression => hdr.compression
  | timestamp => hdr.timestamp

/-- **The macros describe the structure**: the mask has the bits of the field. -/
theorem mask_eq (field : MesField) : field.mask = BitField.mask 32 field.pos field.width := by
  cases field <;> decide

theorem fits (field : MesField) : field.pos + field.width ≤ 32 := by
  cases field <;> decide

/-- **The structure describes the macros**: the field lies at the position of the mask. -/
theorem read_eq (hdr : StepMesHeader) (field : MesField) :
    field.read hdr = hdr.filterBits.extractLsb' field.pos field.width := by
  have hflag : ∀ start len, start + len ≤ 16 →
      hdr.flagsBits.extractLsb' start len = hdr.filterBits.extractLsb' (16 + start) len :=
    fun _ _ hle => BitField.extract_extract hle _
  cases field with
  | fullType =>
      exact BitVec.extractLsb'_append_extractLsb'_eq_extractLsb' rfl
  | baseType => rfl
  | extType => rfl
  | flags => rfl
  | format => exact hflag 0 3 (by decide)
  | encoding => exact hflag 3 4 (by decide)
  | compression => exact hflag 7 3 (by decide)
  | timestamp => exact hflag 10 3 (by decide)

end MesField

/-! ### Testing fields -/

/-- A field, and the value it is to have.  The value has the width of the field, so a test of a
field for a value that does not fit in it cannot be written. -/
structure FieldTest where
  field : MesField
  value : BitVec field.width

/-- The measurement passes the test. -/
def FieldTest.Passes (t : FieldTest) (hdr : StepMesHeader) : Prop :=
  t.field.read hdr = t.value

instance (t : FieldTest) (hdr : StepMesHeader) : Decidable (t.Passes hdr) :=
  inferInstanceAs (Decidable (_ = _))

/-- The filter entry for a test: the value shifted to its position, and everything outside
the mask ignored. -/
def FieldTest.entry (t : FieldTest) (op : StepFilterOp) : StepFilter :=
  ⟨op, t.value.setWidth 32 <<< t.field.pos, ~~~t.field.mask⟩

/-- **The entry tests the field**, whatever the other bits of the word are. -/
theorem FieldTest.entryHolds_iff (t : FieldTest) (op : StepFilterOp) (hdr : StepMesHeader) :
    EntryHolds (t.entry op) hdr.filterBits ↔ t.Passes hdr := by
  rw [Passes, MesField.read_eq, ← BitField.agree_iff_extract_eq t.field.fits,
    ← MesField.mask_eq, EntryHolds]
  refine forall₂_congr fun i hi => ?_
  simp [entry, hi]

/-- The AND entries of a chain go on as long as the tests pass. -/
theorem foldl_and_eq (hdr : StepMesHeader) (ts : List FieldTest) (prev : Bool) :
    (ts.map (FieldTest.entry · .and)).foldl (fun prev g =>
        g.op.combine prev (decide (EntryHolds g hdr.filterBits))) prev =
      (prev && decide (∀ t ∈ ts, t.Passes hdr)) := by
  induction ts generalizing prev with
  | nil => simp
  | cons t ts ih =>
      rw [List.map_cons, List.foldl_cons, ih]
      have hop : (t.entry .and).op = .and := rfl
      simp only [hop, StepFilterOp.combine, t.entryHolds_iff, List.forall_mem_cons,
        Bool.decide_and, Bool.and_assoc]

/-- **Masks, header and filter engine agree.**  One entry accepts exactly the measurements
whose field has the value; an IS entry followed by AND entries accepts exactly those all
of whose fields do. -/
theorem mask_filters_test_fields (mes : StepMeasurement) (t : FieldTest) (ts : List FieldTest) :
    stepFiltEvaluate (some ⟨1, some [t.entry .is]⟩) (some mes) =
        .ok (0, if t.Passes mes.header then 1 else 0) ∧
      stepFiltEvaluate
          (some ⟨ts.length + 1, some (t.entry .is :: ts.map (FieldTest.entry · .and))⟩)
          (some mes) =
        .ok (0, if ∀ u ∈ t :: ts, u.Passes mes.header then 1 else 0) := by
  have hchain : ∀ us : List FieldTest,
      stepFiltEvaluate
          (some ⟨us.length + 1, some (t.entry .is :: us.map (FieldTest.entry · .and))⟩)
          (some mes) =
        .ok (0, if ∀ u ∈ t :: us, u.Passes mes.header then 1 else 0) := by
    intro us
    have hlater : ∀ g ∈ us.map (FieldTest.entry · .and), g.op.Later := by
      intro g hg
      obtain ⟨u, -, rfl⟩ := List.mem_map.mp hg
      exact Or.inl rfl
    have hfirst : (t.entry .is).op.Initial := Or.inl rfl
    have heval := stepFiltEvaluate_eq mes hfirst hlater
    rw [List.length_map] at heval
    have hop : (t.entry .is).op.initial = id := rfl
    rw [heval, chainMeaning, foldl_and_eq, hop, id, decide_eq_decide.mpr (t.entryHolds_iff _ _),
      ← Bool.decide_and]
    simp only [boolToInt, decide_eq_true_eq, List.forall_mem_cons]
  exact ⟨by simpa using hchain [], hchain ts⟩

/-- The base type and the timestamp, with other bits set around them. -/
example : stepFiltEvaluate
    (some ⟨2, some [FieldTest.entry ⟨.baseType, 0x26#8⟩ .is,
      FieldTest.entry ⟨.timestamp, 1#3⟩ .and]⟩)
    (some ⟨⟨0xE4FFFF26, 0, 0⟩, []⟩) = .ok (0, 1) := by decide +kernel

end StepPipeline
