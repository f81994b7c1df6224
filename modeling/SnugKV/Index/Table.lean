import SnugKV.Index.KeyPack
import SnugKV.Lib.Probe

/-!
# Table — the open-addressed key index

A slot is one 64-bit word: the live bit, six fingerprint bits of the key's hash, a 27-bit
value and the 30-bit offset of the key's record in the key log.  The zero word is an empty
slot and the word 1 a tombstone.

The module embeds the table's operations: lookup, the two insertions, deletion, the rebuilds
and the reservation.  The hash is a parameter, as the seed of the process is.  The spare
capacity of the two slices is not part of the state: no operation reads it.
-/

namespace SnugKV
namespace Index

open Lib

/-! ## Slot words -/

def liveBit : UInt64 := (1 : UInt64) <<< 63
def slotTombstone : UInt64 := 1
def fingerprintShift : UInt64 := 57
def fingerprintMask : UInt64 := 0x3f
def valueShift : UInt64 := 30
def valueMask : UInt64 := (1 : UInt64) <<< 27 - 1
def offsetMask : UInt64 := (1 : UInt64) <<< 30 - 1

def maxValue : UInt32 := valueMask.toUInt32

def maxLogBytes : Nat := offsetMask.toNat + 1

def initialCapacity : Nat := 4
def minCompactLogBytes : Nat := 4096
def gradualGrowthMin : Nat := 256

def slotWord (fingerprint : UInt64) (value offset : UInt32) : UInt64 :=
  liveBit ||| fingerprint <<< fingerprintShift ||| value.toUInt64 <<< valueShift ||| offset.toUInt64

def slotFingerprint (w : UInt64) : UInt64 := (w >>> fingerprintShift) &&& fingerprintMask
def slotValue (w : UInt64) : UInt32 := ((w >>> valueShift) &&& valueMask).toUInt32
def slotOffset (w : UInt64) : UInt32 := (w &&& offsetMask).toUInt32

def hashFingerprint (hash : UInt64) : UInt64 := (hash >>> 58) &&& fingerprintMask

def tinyFilterBits (hash : UInt64) : UInt32 :=
  (1 : UInt32) <<< (hash &&& 31).toUInt32 ||| (1 : UInt32) <<< ((hash >>> 32) &&& 31).toUInt32

/-! ## The table -/

/-- `count` and `deadBytes` are 32-bit counters; both are bounded by the length of the log. -/
structure Table where
  slots : List UInt64
  log : Bytes
  deadBytes : Nat
  count : Nat
  tinyFilter : UInt32
  deriving DecidableEq, Repr

inductive Panic where
  /-- `known index entry is missing` -/
  | knownMissing
  /-- `index value exceeds the 27-bit slot capacity` -/
  | valueTooLarge
  /-- `index key log exceeds its 1 GiB capacity` -/
  | logFull
  /-- `index capacity invariant` -/
  | capacityInvariant
  deriving DecidableEq, Repr

/-- `New` -/
def Table.new : Table :=
  { slots := [], log := [], deadBytes := 0, count := 0, tinyFilter := 0 }

/-- Maps the low 32 hash bits onto the slots with a 64-bit multiply and shift. -/
def probeStart (hash : UInt64) (size : Nat) : Nat :=
  ((hash.toNat % 2 ^ 32) * size % 2 ^ 64) >>> 32

/-! ## Capacities -/

def capacityAccepts (n capacity : Nat) : Bool :=
  if capacity = initialCapacity then decide (n ≤ capacity) else decide (n ≤ capacity * 8 / 10)

/-- `for !capacityAccepts(n, capacity) { capacity += 8 }` -/
def widen (n : Nat) : Nat → Nat → Nat
  | 0, capacity => capacity
  | fuel + 1, capacity =>
    if capacityAccepts n capacity then capacity else widen n fuel (capacity + 8)

/-- The smallest multiple of eight slots that holds `n` keys. -/
def tightCapacity (n : Nat) : Nat :=
  if n ≤ initialCapacity then initialCapacity
  else widen n n (((n * 5 + 3) / 4 + 7) / 8 * 8)

/-- The loop of `capacityFor`: doubling below `gradualGrowthMin`, half as many keys again
from there on. -/
def growCapacity (n : Nat) : Nat → Nat → Nat
  | 0, capacity => capacity
  | fuel + 1, capacity =>
    if capacityAccepts n capacity then capacity
    else if capacity < gradualGrowthMin then growCapacity n fuel (capacity * 2)
    else growCapacity n fuel (tightCapacity (n + n / 2))

/-- Six doublings reach `gradualGrowthMin` from the initial capacity. -/
def capacityFor (size n : Nat) : Nat :=
  if n = 0 then size
  else growCapacity n 8 (if size = 0 then initialCapacity else size)

/-! ## Lookup -/

/-- One pass of the lookup loop of `GetHashed` and `deleteHashed`. -/
def lookupBody (t : Table) (key : Key) (fingerprint : UInt64) (_ : Unit) (i : Nat) :
    Probe.Step Unit (Option Nat) :=
  let w := t.slots.getD i 0
  if w = 0 then .done none
  else if w &&& liveBit = 0 ∨ slotFingerprint w ≠ fingerprint then .next ()
  else if keyEquals t.log (slotOffset w).toNat key then .done (some i)
  else .next ()

def lookupSlot (t : Table) (key : Key) (hash : UInt64) : Option Nat :=
  if t.slots.length = 0 then none
  else if t.slots.length = initialCapacity ∧ t.count = initialCapacity ∧
      t.tinyFilter &&& tinyFilterBits hash ≠ tinyFilterBits hash then none
  else
    (Probe.scan t.slots.length (lookupBody t key (hashFingerprint hash)) t.slots.length
      (probeStart hash t.slots.length) ()).answer

def getHashed (t : Table) (key : Key) (hash : UInt64) : Option UInt32 :=
  (lookupSlot t key hash).map (fun i => slotValue (t.slots.getD i 0))

/-! ## Insertion -/

/-- One pass of the insertion loops; `found` recognises the word of the key itself. -/
def insertBody (slots : List UInt64) (found : UInt64 → Bool) (deleted : Option Nat) (i : Nat) :
    Probe.Step (Option Nat) Probe.Spot :=
  let w := slots.getD i 0
  if w = 0 then .done (.vacant (deleted.getD i))
  else if w &&& liveBit ≠ 0 then if found w then .done (.found i) else .next deleted
  else .next (deleted.or (some i))

def insertSlot (slots : List UInt64) (found : UInt64 → Bool) (hash : UInt64) :
    Option Probe.Spot :=
  Probe.Spot.ofStep (Probe.scan slots.length (insertBody slots found) slots.length
    (probeStart hash slots.length) none)

def addFilter (t : Table) (hash : UInt64) : Table :=
  if t.slots.length = initialCapacity then
    { t with tinyFilter := t.tinyFilter ||| tinyFilterBits hash }
  else t

def appendKey (log : Bytes) (key : Key) : Except Panic (Bytes × UInt32) :=
  if maxLogBytes < log.length + keyRecordSize key then .error .logFull
  else .ok (log ++ record key, UInt32.ofNat log.length)

def fillSlot (t : Table) (i : Nat) (word : UInt64) : Table :=
  { t with slots := t.slots.set i word, count := t.count + 1 }

def writeSlot (t : Table) (i : Nat) (word : UInt64) : Table :=
  { t with slots := t.slots.set i word }

/-- Stores an already-logged key at its probe position; the caller has established that the
key is not in the table. -/
def placeKnownAbsent (t : Table) (hash : UInt64) (value offset : UInt32) : Except Panic Table :=
  let t := addFilter t hash
  match insertSlot t.slots (fun _ => false) hash with
  | some (.found i) | some (.vacant i) =>
    .ok (fillSlot t i (slotWord (hashFingerprint hash) value offset))
  | none => .error .capacityInvariant

def insertKnownAbsentHashed (t : Table) (key : Key) (value : UInt32) (hash : UInt64) :
    Except Panic Table :=
  if maxValue < value then .error .valueTooLarge
  else
    match appendKey t.log key with
    | .error e => .error e
    | .ok (log, offset) => placeKnownAbsent { t with log } hash value offset

/-- The test by which `insertHashed` recognises the word of its own key. -/
def ownWord (log : Bytes) (key : Key) (fingerprint w : UInt64) : Bool :=
  slotFingerprint w == fingerprint && keyEquals log (slotOffset w).toNat key

def insertHashed (t : Table) (key : Key) (value : UInt32) (hash : UInt64) :
    Except Panic Table :=
  if maxValue < value then .error .valueTooLarge
  else
    let t := addFilter t hash
    let fingerprint := hashFingerprint hash
    match insertSlot t.slots (ownWord t.log key fingerprint) hash with
    | some (.found i) =>
      .ok (writeSlot t i (slotWord fingerprint value (slotOffset (t.slots.getD i 0))))
    | some (.vacant i) =>
      match appendKey t.log key with
      | .error e => .error e
      | .ok (log, offset) => .ok (fillSlot { t with log } i (slotWord fingerprint value offset))
    | none => .error .capacityInvariant

/-! ## Rebuilds -/

section Hashed

variable (hash : Key → UInt64)

def recordHash (log : Bytes) (offset : UInt32) : UInt64 :=
  hash (keyAt log offset.toNat)

/-- The rebuilds start from a table without slots or counts. -/
def cleared (t : Table) (capacity : Nat) : Table :=
  { t with slots := List.replicate capacity 0, count := 0, tinyFilter := 0 }

def replaceSlot (t : Table) (w : UInt64) : Except Panic Table :=
  if w &&& liveBit = 0 then .ok t
  else placeKnownAbsent t (recordHash hash t.log (slotOffset w)) (slotValue w) (slotOffset w)

def rebuildSlots (t : Table) (capacity : Nat) : Except Panic Table :=
  t.slots.foldlM (replaceSlot hash) (cleared t capacity)

def repackSlot (oldLog : Bytes) (t : Table) (w : UInt64) : Except Panic Table :=
  if w &&& liveBit = 0 then .ok t
  else
    let offset := UInt32.ofNat t.log.length
    let size := recordLen oldLog (slotOffset w).toNat
    let log := t.log ++ (oldLog.drop (slotOffset w).toNat).take size
    placeKnownAbsent { t with log } (recordHash hash log offset) (slotValue w) offset

def rebuildPacked (t : Table) (capacity : Nat) : Except Panic Table :=
  t.slots.foldlM (repackSlot hash t.log)
    { cleared t capacity with log := [], deadBytes := 0 }

def rebuild (t : Table) (capacity : Nat) : Except Panic Table :=
  if minCompactLogBytes < t.deadBytes ∧ t.log.length < t.deadBytes * 4 then
    rebuildPacked hash t capacity
  else rebuildSlots hash t capacity

def growForInsert (t : Table) : Except Panic Table :=
  let capacity := capacityFor t.slots.length (t.count + 1)
  if capacity = t.slots.length then .ok t else rebuild hash t capacity

/-! ## Operations -/

def Table.set (t : Table) (key : Key) (value : UInt32) : Except Panic Table :=
  match getHashed t key (hash key) with
  | some _ => insertHashed t key value (hash key)
  | none =>
    match growForInsert hash t with
    | .error e => .error e
    | .ok t => insertHashed t key value (hash key)

/-- `present` is the caller's finding whether the key is in the table. -/
def setKnownHashed (t : Table) (key : Key) (value : UInt32) (h : UInt64) (present : Bool) :
    Except Panic Table :=
  if present then
    match getHashed t key h with
    | none => .error .knownMissing
    | some _ => insertHashed t key value h
  else
    match growForInsert hash t with
    | .error e => .error e
    | .ok t => insertKnownAbsentHashed t key value h

def deleteHashed (t : Table) (key : Key) (h : UInt64) : Except Panic Table :=
  match lookupSlot t key h with
  | none => .ok t
  | some i =>
    let t : Table := { t with
      deadBytes := t.deadBytes + recordLen t.log (slotOffset (t.slots.getD i 0)).toNat
      slots := t.slots.set i slotTombstone
      count := t.count - 1 }
    if t.count = 0 then .ok { t with tinyFilter := 0, log := [], deadBytes := 0 }
    else if minCompactLogBytes < t.deadBytes ∧ t.log.length < t.deadBytes * 3 then
      rebuildPacked hash t t.slots.length
    else .ok t

def reserveKeys (t : Table) (n : Int) : Except Panic Table :=
  let n := (max n t.count).toNat
  if n = 0 then .ok { t with slots := [], log := [], deadBytes := 0, tinyFilter := 0 }
  else if tightCapacity n ≠ t.slots.length ∨ 0 < t.deadBytes then
    rebuildPacked hash t (tightCapacity n)
  else .ok t

def compact (t : Table) : Except Panic Table :=
  reserveKeys hash t t.count

end Hashed

/-- The pairs `All` yields, in slot order. -/
def Table.all (t : Table) : List (Key × UInt32) :=
  t.slots.filterMap (fun w =>
    if w &&& liveBit ≠ 0 then some (keyAt t.log (slotOffset w).toNat, slotValue w) else none)

end Index
end SnugKV
