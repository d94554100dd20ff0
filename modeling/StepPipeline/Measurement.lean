import Mathlib.Data.BitVec

/-!
# Measurements

`struct step_mes_header` is three 32-bit words, each of them a union of the word
with its fields.  The words are the data, the fields are read out of them; all
fields are little-endian and bit-fields are allocated from the least significant
bit, as the header file documents.

## What of the structure is here

A node, a filter and the cache see the header and the payload bytes.  Where these lie in memory,
and the queue item and the flag that share the structure with them, matter to the sample pool and
to the work queue, and are modelled there.  Of the fields only those are here that some function
of the library reads; the others are bits of the three words and nothing more, which is all the
code knows of them.
-/

namespace StepPipeline

/-- `struct step_mes_header`.  The code compares and copies the words as a whole, and reads fields
out of them in `step_mes_sz_payload` and `step_mes_validate`; as the words are the data, both
views are of one value and cannot disagree. -/
structure StepMesHeader where
  /-- The filter word: measurement type and flags. -/
  filterBits : BitVec 32
  /-- The unit word: SI unit, scale factor and C type. -/
  unitBits : BitVec 32
  /-- The source/length word. -/
  srclenBits : BitVec 32
  deriving DecidableEq, Repr

namespace StepMesHeader

/-! ### The filter word -/

/-- `filter.base_type`. -/
def baseType (hdr : StepMesHeader) : BitVec 8 := hdr.filterBits.extractLsb' 0 8

/-- `filter.ext_type`. -/
def extType (hdr : StepMesHeader) : BitVec 8 := hdr.filterBits.extractLsb' 8 8

/-- `filter.flags_bits`, the union of the flags with their bit-fields. -/
def flagsBits (hdr : StepMesHeader) : BitVec 16 := hdr.filterBits.extractLsb' 16 16

/-- `filter.flags.data_format`. -/
def dataFormat (hdr : StepMesHeader) : BitVec 3 := hdr.flagsBits.extractLsb' 0 3

/-- `filter.flags.encoding`. -/
def encoding (hdr : StepMesHeader) : BitVec 4 := hdr.flagsBits.extractLsb' 3 4

/-- `filter.flags.compression`. -/
def compression (hdr : StepMesHeader) : BitVec 3 := hdr.flagsBits.extractLsb' 7 3

/-- `filter.flags.timestamp`. -/
def timestamp (hdr : StepMesHeader) : BitVec 3 := hdr.flagsBits.extractLsb' 10 3

/-! ### The unit word -/

/-- `unit.ctype`. -/
def ctype (hdr : StepMesHeader) : BitVec 8 := hdr.unitBits.extractLsb' 24 8

/-! ### The source/length word -/

/-- `srclen.len`: the payload length. -/
def srclenLen (hdr : StepMesHeader) : BitVec 16 := hdr.srclenBits.extractLsb' 0 16

/-- `srclen.vec_sz`: the number of vector components behind the first. -/
def vecSz (hdr : StepMesHeader) : BitVec 2 := hdr.srclenBits.extractLsb' 18 2

/-- `srclen.samples`: the sample count, as a power of two. -/
def samples (hdr : StepMesHeader) : BitVec 4 := hdr.srclenBits.extractLsb' 20 4

end StepMesHeader

/-- `struct step_measurement`, as a node sees it: the header and the payload bytes.  The payload
pointer has been followed: whether it leads where it should is a question about memory, which
`SamplePool` asks. -/
structure StepMeasurement where
  header : StepMesHeader
  payload : List (BitVec 8)
  deriving DecidableEq, Repr

end StepPipeline
