import SnugKV.Lib.Binary
import SnugKV.Lib.Buffer

/-!
# Arena — segmented byte allocations with generation-checked references

Values live in blocks: an eight-byte header that holds the generation of the value's
reference, and the value's bytes.  Blocks of one size class that were freed are chained
through their own bytes, behind a zero header.  A block that owns a whole segment is released
with it, and the segment's slot becomes a hole for the next such block.  Values of at most
eight bytes can instead be kept in the reference itself.

The accounting of memory is in `Growth`; `AllocationBytes` is left out.
-/

namespace SnugKV

open Lib

/-- The ways an arena call is refused: an error of the readers, or a panic. -/
inductive ArenaFault where
  /-- `invalid inline reference` -/
  | invalidInline
  /-- `invalid empty reference` -/
  | invalidEmpty
  /-- `invalid segment` -/
  | invalidSegment
  /-- `stale arena reference` -/
  | stale
  /-- `invalid arena reference` -/
  | invalidReference
  /-- `arena allocation too large` -/
  | tooLarge
  /-- `arena segment index exceeds reference capacity` -/
  | segmentLimit
  /-- `arena offset exceeds reference capacity` -/
  | offsetLimit
  /-- `arena value exceeds reference capacity` -/
  | lengthLimit
  deriving DecidableEq, Repr

structure Segment where
  /-- The committed bytes. -/
  data : Bytes
  /-- The reserved size. -/
  cap : Nat
  deriving DecidableEq, Repr

structure FreeTable where
  /-- One list head for each bucket: `(segment+1) << 32 | offset`, or 0. -/
  heads : List Nat
  /-- Slots of released segments, the last one first. -/
  holes : List Nat
  deriving DecidableEq, Repr

structure Arena where
  segments : List Segment
  free : Option FreeTable
  generation : Nat
  deriving DecidableEq, Repr

namespace Arena

def segmentBytes : Nat := 8 * 2 ^ 10
def firstSmallSegmentBytes : Nat := 256
def tinyFirstSegmentBytes : Nat := 192
def secondSmallSegmentBytes : Nat := 2 ^ 10
def freeBucketCount : Nat := 137

/-! ## References -/

/-- An allocation's identity: its location, packed, and its generation. -/
structure Ref where
  location : UInt64
  generation : UInt64
  deriving DecidableEq, Repr

/-- `Ref{}`, the reference of an empty value. -/
def Ref.zero : Ref := ⟨0, 0⟩

def refLengthBits : UInt64 := 26
def refOffsetBits : UInt64 := 13
def refLengthMask : UInt64 := (1 : UInt64) <<< 26 - 1
def refOffsetMask : UInt64 := (1 : UInt64) <<< 13 - 1
def refSegmentMask : UInt64 := (1 : UInt64) <<< 25 - 1

def inlineMarker : UInt64 := (1 : UInt64) <<< 18
def inlineLengthShift : UInt64 := 14
def inlineLengthMask : UInt64 := (0xf : UInt64) <<< 14
def inlineGenerationMask : UInt64 := (1 : UInt64) <<< 14 - 1
def blockGenerationMask : UInt64 := inlineMarker - 1

def newRef (segment offset length : Nat) (generation : UInt64) : Except ArenaFault Ref :=
  if refSegmentMask.toNat < segment then .error .segmentLimit
  else if refOffsetMask.toNat < offset then .error .offsetLimit
  else if refLengthMask.toNat < length then .error .lengthLimit
  else
    .ok
      { location := UInt64.ofNat segment <<< (refOffsetBits + refLengthBits) |||
          UInt64.ofNat offset <<< refLengthBits ||| UInt64.ofNat length
        generation }

def Ref.segment (r : Ref) : Nat :=
  ((r.location >>> (refOffsetBits + refLengthBits)) &&& refSegmentMask).toNat

def Ref.offset (r : Ref) : Nat :=
  ((r.location >>> refLengthBits) &&& refOffsetMask).toNat

def Ref.length (r : Ref) : Nat :=
  (r.location &&& refLengthMask).toNat

def Ref.isInline (r : Ref) : Bool :=
  r.generation &&& inlineMarker != 0

def Ref.inline (r : Ref) : Option Bytes :=
  if !r.isInline then none
  else
    let n := ((r.generation &&& inlineLengthMask) >>> inlineLengthShift).toNat
    if n < 1 ∨ 8 < n then none
    else some ((putUint 8 r.location.toNat).take n)

/-- The counter wraps and skips zero, which marks a free block. -/
def nextGeneration (a : Arena) : Arena :=
  let g := a.generation + 1
  { a with generation := if blockGenerationMask.toNat < g then 1 else g }

/-- Stores up to eight bytes in the reference; it draws a generation like a block does. -/
def allocInline (a : Arena) (value : Bytes) : Option (Ref × Arena) :=
  if value.length = 0 ∨ 8 < value.length then none
  else
    let a := nextGeneration a
    let generation := UInt64.ofNat a.generation &&& inlineGenerationMask
    some
      ({ location := UInt64.ofNat (getUint (value ++ List.replicate (8 - value.length) 0))
         generation := inlineMarker ||| UInt64.ofNat value.length <<< inlineLengthShift |||
           generation },
        a)

/-! ## Size classes -/

/-- `(n + m - 1) &^ (m - 1)` for a power of two `m`. -/
def roundUp (m n : Nat) : Nat :=
  (n + (m - 1)) / m * m

/-- A block above half a segment owns its segment, unless a shared one has room for it. -/
def dedicatedBlock (block : Nat) : Bool :=
  decide (segmentBytes / 2 < block)

def sharedLargeBucketBase : Nat := 51
def dedicatedBucket : Nat := 58
def maxArenaBlock : Nat := 33 * 2 ^ 20 + 8 * 2 ^ 10

/-- The allocator's size classes above 4,096 bytes. -/
def goSmallSizeClasses : List Nat :=
  [4864, 5376, 6144, 6528, 6784, 6912, 8192, 9472, 9728, 10240, 10880, 12288, 13568, 14336,
    16384, 18432, 19072, 20480, 21760, 24576, 27264, 28672, 32768]

def goPageBytes : Nat := 8 * 2 ^ 10

def dedicatedBlockSize (size : Nat) : Nat :=
  match goSmallSizeClasses.find? (fun c => decide (size ≤ c)) with
  | some c => c
  | none => roundUp goPageBytes size

/-- One geometric step of the classes up to half a segment. -/
def nextBlock (block : Nat) : Nat :=
  min (block + max (block / 8) 128) (segmentBytes / 2)

/-- `for block < size { … }`, counting the buckets; twelve steps end at half a segment. -/
def geometricClass (size : Nat) : Nat → Nat → Nat → Nat × Nat
  | 0, bucket, block => (bucket, block)
  | fuel + 1, bucket, block =>
    if block < size then geometricClass size fuel (bucket + 1) (nextBlock block)
    else (bucket, block)

/-- The classes of `class` up to 1,024 bytes, header included. -/
def smallClass (size : Nat) : Nat × Nat :=
  if 16 < size ∧ size ≤ 24 then (128, 24)
  else if 80 < size ∧ size ≤ 88 then (129, 88)
  else if size ≤ 48 then (roundUp 16 size / 16 - 1, roundUp 16 size)
  else if size ≤ 56 then (3, 56)
  else if size ≤ 128 then (4 + (roundUp 16 size - 64) / 16, roundUp 16 size)
  else if size ≤ 256 then (9 + (roundUp 32 size - 160) / 32, roundUp 32 size)
  else if size ≤ 384 then (13 + (roundUp 16 size - 272) / 16, roundUp 16 size)
  else if size ≤ 512 then
    let block := roundUp 16 size
    if block = 448 ∨ block = 512 then (21 + (block - 448) / 64, block)
    else (130 + (block - 400) / 16, block)
  else (23 + (roundUp 32 size - 544) / 32, roundUp 32 size)

/-- The classes of `class` above half a segment. -/
def largeClass (size : Nat) : Nat × Nat :=
  let block := dedicatedBlockSize size
  if block ≤ segmentBytes ∧ block ∈ goSmallSizeClasses then
    (sharedLargeBucketBase + goSmallSizeClasses.idxOf block, block)
  else (dedicatedBucket, block)

/-- `class`: the bucket and the block size for a value of `n` bytes; `none` is the panic
on a value that is too large. -/
def sizeClass (n : Nat) : Option (Nat × Nat) :=
  let size := if n + 8 < 16 then 16 else n + 8
  if size ≤ 1024 then some (smallClass size)
  else if size ≤ segmentBytes / 2 then some (geometricClass size 12 38 1024)
  else if maxArenaBlock < size then none
  else some (largeClass size)

def segmentSizeForBlock (block : Nat) : Nat :=
  if segmentBytes < block then block
  else if block ≤ 1024 then segmentBytes
  else if segmentBytes / block < 1 then block
  else segmentBytes / block * block

def segmentSizeForAllocation (block existingSegments : Nat) : Nat :=
  if 1024 < block ∨ 2 ≤ existingSegments then segmentSizeForBlock block
  else
    let target := if existingSegments = 0 ∧ block = 24 then tinyFirstSegmentBytes
      else firstSmallSegmentBytes
    let target := if existingSegments = 1 then secondSmallSegmentBytes else target
    if target < block then block
    else if target / block < 1 then block
    else target / block * block

/-! ## Memory -/

def empty : Arena := { segments := [], free := none, generation := 0 }

def data (a : Arena) (seg : Nat) : Bytes :=
  (a.segments[seg]?.map Segment.data).getD []

def capacity (a : Arena) (seg : Nat) : Nat :=
  (a.segments[seg]?.map Segment.cap).getD 0

def word (a : Arena) (seg offset : Nat) : Nat :=
  getUint (readAt (a.data seg) offset 8)

def setData (a : Arena) (seg : Nat) (bytes : Bytes) : Arena :=
  { a with segments := a.segments.modify seg (fun s => { s with data := bytes }) }

/-- `copy(data[offset:], bytes)` -/
def write (a : Arena) (seg offset : Nat) (bytes : Bytes) : Arena :=
  a.setData seg (writeAt (a.data seg) offset bytes)

def setSegment (a : Arena) (seg : Nat) (s : Segment) : Arena :=
  { a with segments := a.segments.set seg s }

def addSegment (a : Arena) (s : Segment) : Arena :=
  { a with segments := a.segments ++ [s] }

def head (a : Arena) (bucket : Nat) : Nat :=
  match a.free with
  | none => 0
  | some f => f.heads.getD bucket 0

def holes (a : Arena) : List Nat :=
  match a.free with
  | none => []
  | some f => f.holes

def setHead (a : Arena) (bucket address : Nat) : Arena :=
  { a with free := a.free.map (fun f => { f with heads := f.heads.set bucket address }) }

def setHoles (a : Arena) (holes : List Nat) : Arena :=
  { a with free := a.free.map (fun f => { f with holes }) }

/-- The free table is made on the first free that needs it. -/
def withFreeTable (a : Arena) : Arena :=
  match a.free with
  | some _ => a
  | none => { a with free := some { heads := List.replicate freeBucketCount 0, holes := [] } }

/-! ## Allocation -/

/-- Takes a block for a value that gets one: from its free list, from a hole, or at the end
of the last segment. -/
def takeBlock (a : Arena) (bucket block : Nat) : Arena × Nat × Nat :=
  let address := a.head bucket
  if address ≠ 0 then
    let seg := address / 2 ^ 32 - 1
    let offset := address % 2 ^ 32
    (a.setHead bucket (a.word seg (offset + 8)), seg, offset)
  else
    match a.holes, dedicatedBlock block with
    | hole :: rest, true =>
      let fresh := { data := List.replicate block 0, cap := segmentSizeForBlock block }
      ((a.setHoles rest).setSegment hole fresh, hole, 0)
    | _, _ =>
      let last := a.segments.length - 1
      let a :=
        if a.segments.length = 0 ∨ a.capacity last - (a.data last).length < block then
          a.addSegment
            { data := [], cap := segmentSizeForAllocation block a.segments.length }
        else a
      let seg := a.segments.length - 1
      let offset := (a.data seg).length
      (a.setData seg (a.data seg ++ List.replicate block 0), seg, offset)

def alloc (a : Arena) (value : Bytes) : Except ArenaFault (Ref × Arena) :=
  if value.length = 0 then .ok (Ref.zero, a)
  else
    match sizeClass value.length with
    | none => .error .tooLarge
    | some (bucket, block) =>
      let (a, seg, offset) := a.takeBlock bucket block
      let a := a.nextGeneration
      let a := a.write seg offset (putUint 8 a.generation)
      let a := a.write seg (offset + 8) value
      match newRef seg offset value.length (UInt64.ofNat a.generation) with
      | .error e => .error e
      | .ok ref => .ok (ref, a)

/-! ## Reading -/

def viewInline (ref : Ref) : Except ArenaFault Bytes :=
  match ref.inline with
  | some out => .ok out
  | none => .error .invalidInline

def view (a : Arena) (ref : Ref) : Except ArenaFault Bytes :=
  if ref.isInline then viewInline ref
  else if ref.generation = 0 then
    if ref.length = 0 then .ok [] else .error .invalidEmpty
  else if a.segments.length ≤ ref.segment then .error .invalidSegment
  else if (a.data ref.segment).length < ref.offset + 8 + ref.length ∨
      a.word ref.segment ref.offset ≠ ref.generation.toNat then .error .stale
  else .ok (readAt (a.data ref.segment) (ref.offset + 8) ref.length)

/-- `View` without the generation check, for a reference known to be live. -/
def viewKnownLive (a : Arena) (ref : Ref) : Except ArenaFault Bytes :=
  if ref.isInline then viewInline ref
  else if ref.generation = 0 then
    if ref.length = 0 then .ok [] else .error .invalidEmpty
  else if a.segments.length ≤ ref.segment then .error .invalidSegment
  else if (a.data ref.segment).length < ref.offset + 8 + ref.length then .error .invalidReference
  else .ok (readAt (a.data ref.segment) (ref.offset + 8) ref.length)

/-! ## Release -/

def ownsSegment (a : Arena) (ref : Ref) (block : Nat) : Bool :=
  dedicatedBlock block && ref.offset == 0 && a.capacity ref.segment == block &&
    (a.data ref.segment).length == block

/-- Releases a reference and returns the bytes handed back to the heap. -/
def release (a : Arena) (ref : Ref) : Except ArenaFault (Nat × Arena) :=
  if ref.isInline then .ok (0, a)
  else if ref.generation = 0 then .ok (0, a)
  else
    match a.view ref, sizeClass ref.length with
    | .error e, _ => .error e
    | .ok _, none => .error .tooLarge
    | .ok _, some (bucket, block) =>
      let seg := ref.segment
      let a := a.withFreeTable
      if a.ownsSegment ref block then
        .ok (block, (a.setHoles (seg :: a.holes)).setSegment seg { data := [], cap := 0 })
      else
        let next := a.head bucket
        let a := a.write seg ref.offset (putUint 8 0)
        let a := a.write seg (ref.offset + 8) (putUint 8 next)
        .ok (0, a.setHead bucket ((seg + 1) * 2 ^ 32 + ref.offset))

end Arena
end SnugKV
