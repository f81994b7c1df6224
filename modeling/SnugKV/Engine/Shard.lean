import SnugKV.Arena.Arena
import SnugKV.Codec.Registry
import SnugKV.Engine.ValueType
import SnugKV.Lib.Slice

/-!
# Shard — the entry array, its sidecars and the free list

`engine/shard.go`: the index maps a key to an entry id, `entries` holds one descriptor per id, and
two lazily allocated arrays run next to it: `metas.slots` with the activity records and
`metas.hotHashes` with the mutable hashes.  Ids of deleted keys wait on the stack `freeIDs`.

* `insertEntry`, `set`, `delete` — the operations on single keys;
* `publish` — the part of `publishRecordKnownWithHash` that touches the entry arrays;
* `promote`, `mutate`, `freeze` — the life of a HOT hash;
* `rebuild` — the dense arrays `Compact` ends with;
* `run` — any sequence of these operations.

An access out of range is a Go panic and gives `none`.  The index is the finite map it refines,
kept as an association list.  A HOT hash carries the key it was made for; the program does not
store that key, it only serves to say whose hash it is.
-/

namespace SnugKV
namespace Engine

open Lib

/-- The value descriptor of `engine.go`.  `packEntry` stores it in two words. -/
structure SnugValue where
  ref : Arena.Ref := Arena.Ref.zero
  rawLength : Nat := 0
  codecID : Codecs.ID := .raw
  valueType : ValueType := .string
  hasExpiry : Bool := false
  rawStable : Bool := false

def SnugValue.isHotHash (e : SnugValue) : Bool :=
  e.rawStable && e.valueType == .hash

/-- A descriptor as the writers prepare it: native hashes never use the flag `rawStable`, which is
reused to mark a HOT hash. -/
structure PreparedEntry where
  value : SnugValue
  cold : value.isHotHash = false

/-- A HOT hash and the key it was made for. -/
structure Owned (H : Type) where
  owner : Bytes
  hash : H

structure EntryMetaSidecar (M H : Type) where
  slots : Slice (Option M)
  /-- `none` is the nil slice. -/
  hotHashes : Option (Slice (Option (Owned H)))

structure Shard (M H : Type) where
  data : List (Bytes × Nat)
  entries : Slice SnugValue
  metas : Option (EntryMetaSidecar M H)
  freeIDs : List Nat

namespace Shard

variable {M H : Type}

def empty : Shard M H := ⟨[], Slice.empty, none, []⟩

/-- `sh.data.Get`. -/
def find (sh : Shard M H) (key : Bytes) : Option Nat :=
  (sh.data.find? (fun p => decide (p.1 = key))).map Prod.snd

/-! ## Capacities -/

/-- One turn of the loop in `entryCapacityFor`. -/
def nextCapacity (capacity : Nat) : Nat :=
  if capacity = 0 then 4
  else if capacity = 4 then 6
  else if capacity = 6 then 8
  else if capacity < 64 then min (capacity * 2) 64
  else capacity + max (capacity / 2) 64

/-- `for target > capacity`: every turn adds at least one. -/
def rampTo (target : Nat) : Nat → Nat → Nat
  | 0, capacity => capacity
  | fuel + 1, capacity =>
    if target > capacity then rampTo target fuel (nextCapacity capacity) else capacity

def entryCapacityFor (sh : Shard M H) (additional : Nat) : Nat :=
  let needed := additional - sh.freeIDs.length
  if needed = 0 then sh.entries.cap
  else
    let target := sh.entries.len + needed
    rampTo target target sh.entries.cap

/-! ## The sidecars -/

def ensureMetaSlots (sh : Shard M H) : Shard M H :=
  match sh.metas with
  | some _ => sh
  | none =>
    { sh with
      metas := some
        ⟨Slice.empty.resize sh.entries.len sh.entries.cap none, none⟩ }

def growMetaSlots (sh : Shard M H) (capacity : Nat) : Shard M H :=
  match sh.metas with
  | none => sh
  | some sc =>
    if capacity ≤ sc.slots.cap then sh
    else { sh with
      metas := some ⟨sc.slots.resize sc.slots.len capacity none, sc.hotHashes⟩ }

def setMeta (sh : Shard M H) (id : Nat) (m : Option M) : Option (Shard M H) :=
  let sh := if m.isSome then sh.ensureMetaSlots else sh
  match sh.metas with
  | none => some sh
  | some sc => (sc.slots.set? id m).map fun slots =>
    { sh with metas := some { sc with slots := slots } }

/-- The arrays `ensureHotHashSlots` leaves: both as long as `entries`. -/
def coveringSidecar (entries : Slice SnugValue) (sc : EntryMetaSidecar M H) :
    EntryMetaSidecar M H :=
  { slots :=
      if sc.slots.len < entries.len then sc.slots.resize entries.len entries.cap none
      else sc.slots
    hotHashes := some
      (match sc.hotHashes with
      | none => Slice.empty.resize entries.len entries.cap none
      | some hot =>
        if hot.len < entries.len || hot.cap < entries.cap then
          hot.resize entries.len entries.cap none
        else hot) }

def ensureHotHashSlots (sh : Shard M H) : Shard M H :=
  let sc := sh.metas.getD
    { slots := Slice.empty.resize sh.entries.len sh.entries.cap none, hotHashes := none }
  { sh with metas := some (coveringSidecar sh.entries sc) }

/-- `sh.metas.hotHashes`. -/
def hotHashes (sh : Shard M H) : Option (Slice (Option (Owned H))) :=
  sh.metas.bind EntryMetaSidecar.hotHashes

def hotHashByID (sh : Shard M H) (id : Nat) : Option (Owned H) :=
  sh.hotHashes.bind fun hot => (hot.get? id).join

/-- `sh.metas.hotHashes[id] = h` where the array is allocated. -/
def storeHotHash (sh : Shard M H) (id : Nat) (h : Option (Owned H)) : Option (Shard M H) :=
  match sh.metas with
  | none => some sh
  | some sc =>
    match sc.hotHashes with
    | none => some sh
    | some hot => (hot.set? id h).map fun hot =>
      { sh with metas := some { sc with hotHashes := some hot } }

def setHotHash (sh : Shard M H) (id : Nat) (h : Option (Owned H)) : Option (Shard M H) :=
  (if h.isSome then sh.ensureHotHashSlots else sh).storeHotHash id h

/-! ## Entries -/

/-- `sh.entries[id]` and, when the slots are allocated, `sh.metas.slots[id]`. -/
def entryView (sh : Shard M H) (id : Nat) : Option (SnugValue × Option M) := do
  let e ← sh.entries.get? id
  match sh.metas with
  | none => some (e, none)
  | some sc => (sc.slots.get? id).map fun m => (e, m)

def storeEntry (sh : Shard M H) (id : Nat) (e : SnugValue) : Option (Shard M H) :=
  (sh.entries.set? id e).map fun entries => { sh with entries := entries }

/-- The new entry at the end of the array; only the slots are appended to next to it. -/
def appendEntry (sh : Shard M H) (e : SnugValue) : Shard M H :=
  let sh :=
    if sh.entries.len = sh.entries.cap then
      let next := sh.entryCapacityFor 1
      { sh with entries := sh.entries.resize sh.entries.len next {} }.growMetaSlots next
    else sh
  { sh with
    entries := sh.entries.push e
    metas := sh.metas.map fun sc => { sc with slots := sc.slots.push none } }

def insertEntry (sh : Shard M H) (key : Bytes) (e : SnugValue) (m : Option M) :
    Option (Shard M H) :=
  match sh.freeIDs with
  | id :: rest => do
      let sh ← { sh with freeIDs := rest }.storeEntry id e
      let sh ← sh.setMeta id m
      some { sh with data := sh.data ++ [(key, id)] }
  | [] => do
      let id := sh.entries.len
      let sh ← (sh.appendEntry e).setMeta id m
      some { sh with data := sh.data ++ [(key, id)] }

def set (sh : Shard M H) (key : Bytes) (e : SnugValue) (m : Option M) : Option (Shard M H) :=
  match sh.find key with
  | some id => do (← sh.storeEntry id e).setMeta id m
  | none => sh.insertEntry key e m

/-- `sh.metas.slots[id] = nil` where the slots are allocated. -/
def clearSlot (sh : Shard M H) (id : Nat) : Option (Shard M H) :=
  sh.setMeta id none

def delete (sh : Shard M H) (key : Bytes) : Option (Shard M H) :=
  match sh.find key with
  | none => some sh
  | some id => do
      let sh := { sh with data := sh.data.filter (fun p => decide (p.1 ≠ key)) }
      let sh ← sh.storeEntry id {}
      let sh ← sh.clearSlot id
      let sh ← sh.storeHotHash id none
      some { sh with freeIDs := id :: sh.freeIDs }

/-! ## Publishing, HOT hashes and compaction -/

/-- `publishRecordKnownWithHash` on the arrays: an overwritten HOT hash is dropped. -/
def publish (sh : Shard M H) (key : Bytes) (e : PreparedEntry) (m : Option M) :
    Option (Shard M H) :=
  match sh.find key with
  | none => sh.set key e.value m
  | some id => do
      let (old, _) ← sh.entryView id
      let sh ← sh.set key e.value m
      if old.isHotHash then sh.setHotHash id none else some sh

/-- `thawHotHashLocked` past its guards on memory limit, size and field deadlines. -/
def promote (sh : Shard M H) (key : Bytes) (h : H) : Option (Shard M H) :=
  match sh.find key with
  | none => some sh
  | some id => do
      let (e, _) ← sh.entryView id
      if e.isHotHash || e.valueType != .hash then some sh
      else
        let sh ← sh.storeEntry id { e with rawStable := true, ref := Arena.Ref.zero }
        sh.setHotHash id (some ⟨key, h⟩)

/-- `mutateHotHashLocked`: the attached hash changes in place. -/
def mutate (sh : Shard M H) (key : Bytes) (f : H → H) : Option (Shard M H) :=
  match sh.find key with
  | none => some sh
  | some id => do
      let (e, _) ← sh.entryView id
      match e.isHotHash, sh.hotHashByID id with
      | true, some h => sh.storeHotHash id (some { h with hash := f h.hash })
      | _, _ => some sh

/-- `freezeHotHashLocked`: the cold form is published over the HOT one. -/
def freeze (sh : Shard M H) (key : Bytes) (e : PreparedEntry) (m : Option M) :
    Option (Shard M H) :=
  match sh.find key with
  | none => some sh
  | some id => do
      let (old, _) ← sh.entryView id
      if old.isHotHash then sh.publish key e m else some sh

/-- The order of the rebuilt entries: `Compact` sorts them by stored length, unstably. -/
structure Order where
  sort : List (Bytes × Nat) → List (Bytes × Nat)
  perm : ∀ l, (sort l).Perm l

def gather (sh : Shard M H) (ref : Bytes → Arena.Ref) :
    List (Bytes × Nat) → Option (List (Bytes × SnugValue × Option M))
  | [] => some []
  | (key, id) :: items => do
      let (e, m) ← sh.entryView id
      let rest ← gather sh ref items
      some ((key, { e with ref := ref key }, m) :: rest)

/-- The dense arrays; the HOT slots are not allocated again. -/
def rebuilt (sh : Shard M H) (items : List (Bytes × SnugValue × Option M)) : Shard M H :=
  { data := items.zipIdx.map fun p => (p.1.1, p.2)
    entries := Slice.ofList (items.map fun p => p.2.1)
    metas := sh.metas.map fun _ =>
      { slots := Slice.ofList (items.map fun p => p.2.2), hotHashes := none }
    freeIDs := [] }

/-- `Compact` on one shard after its freezes: a shard with an active HOT hash is skipped. -/
def rebuild (sh : Shard M H) (order : Order) (ref : Bytes → Arena.Ref) :
    Option (Shard M H) := do
  let items ← sh.gather ref (order.sort sh.data)
  if items.any fun p => p.2.1.isHotHash then some sh else some (sh.rebuilt items)

/-! ## Runs -/

inductive Op (M H : Type) where
  | publish (key : Bytes) (e : PreparedEntry) (m : Option M)
  | delete (key : Bytes)
  | promote (key : Bytes) (h : H)
  | mutate (key : Bytes) (f : H → H)
  | freeze (key : Bytes) (e : PreparedEntry) (m : Option M)
  | rebuild (order : Order) (ref : Bytes → Arena.Ref)

def step (sh : Shard M H) : Op M H → Option (Shard M H)
  | .publish key e m => sh.publish key e m
  | .delete key => sh.delete key
  | .promote key h => sh.promote key h
  | .mutate key f => sh.mutate key f
  | .freeze key e m => sh.freeze key e m
  | .rebuild order ref => sh.rebuild order ref

/-- `none` when some operation panicked. -/
def run (sh : Shard M H) : List (Op M H) → Option (Shard M H)
  | [] => some sh
  | op :: ops => (sh.step op).bind fun sh' => sh'.run ops

end Shard

end Engine
end SnugKV
