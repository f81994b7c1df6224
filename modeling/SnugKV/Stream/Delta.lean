import SnugKV.Engine.ValueType
import SnugKV.Lib.Keyed
import SnugKV.Persistence.Record
import SnugKV.Stream.Rollback

/-!
# Delta — a command's changes as small records, and their replay

`StreamTx.Records` of `engine/stream_tx.go` and `engine/stream_delta.go`.  What a command did to a
stream is written down as the entries it appended, the ids it removed, the counters behind it and
what changed in the groups; replaying the record does the same to a copy of the stream.

* `diffStreamGroups`, `applyGroupOps` — the change of a list of groups, and its replay;
* `records` — the records of a transaction;
* `applyStreamDelta` — the replay of one record.
-/

namespace SnugKV
namespace Stream

open Lib
open Persistence (ConsumerState PendingState GroupDelta StreamDelta Record)

/-! ## Groups -/

def idPair (id : StreamID) : UInt64 × UInt64 := (id.millis, id.sequence)

def pairID (p : UInt64 × UInt64) : StreamID := ⟨p.1, p.2⟩

@[simp] theorem pairID_idPair (id : StreamID) : pairID (idPair id) = id := rfl

/-- The value a Go map built from the list has under the key: the last one wins. -/
def lookupLast {α κ : Type} [DecidableEq κ] (key : α → κ) (l : List α) (k : κ) : Option α :=
  l.reverse.find? fun a => key a = k

def consumerState (c : Consumer) : ConsumerState := ⟨c.name, c.seenAt, c.activeAt⟩

def pendingState (p : Pending) : PendingState :=
  ⟨idPair p.id, p.consumer, p.deliveredAt, p.deliveries⟩

/-- `streamGroup{}`. -/
def Group.zero : Group := ⟨[], ⟨0, 0⟩, 0, [], []⟩

/-- The delta of one group; `prev` is the group of that name before. -/
def diffGroup (prev : Option Group) (g : Group) : GroupDelta :=
  let set := match prev with
    | none => true
    | some p => p.lastDeliveredID ≠ g.lastDeliveredID || p.entriesRead ≠ g.entriesRead
  let old := prev.getD Group.zero
  { name := g.name
    set := set
    lastDelivered := if set then idPair g.lastDeliveredID else (0, 0)
    entriesRead := if set then g.entriesRead else 0
    consumers := (g.consumers.filter fun c =>
      lookupLast Consumer.name old.consumers c.name ≠ some c).map consumerState
    delConsumers := (old.consumers.filter fun c =>
      c.name ∉ g.consumers.map Consumer.name).map Consumer.name
    pending := (g.pending.filter fun p =>
      lookupLast Pending.id old.pending p.id ≠ some p).map pendingState
    delPending := (old.pending.filter fun p =>
      p.id ∉ g.pending.map Pending.id).map fun p => idPair p.id }

/-- The delta says something. -/
def notable (d : GroupDelta) : Bool :=
  d.set || !d.consumers.isEmpty || !d.delConsumers.isEmpty || !d.pending.isEmpty ||
    !d.delPending.isEmpty

def diffStreamGroups (before after : List Group) : List GroupDelta :=
  (after.map fun g => diffGroup (lookupLast Group.name before g.name) g).filter notable ++
    (before.filter fun g => g.name ∉ after.map Group.name).map fun g =>
      { name := g.name, remove := true }

def putConsumer (cs : List Consumer) (c : ConsumerState) : List Consumer :=
  change Consumer.name cs c.name fun
    | some old => { old with seenAt := c.seenAt, activeAt := c.activeAt }
    | none => ⟨c.name, c.seenAt, c.activeAt⟩

/-- Sets the entry of a map from ids to pending entries. -/
def putPending (ps : List Pending) (p : Pending) : List Pending :=
  change Pending.id ps p.id fun _ => p

/-- A pending entry of a delta; an owner nobody knows is added to the consumers. -/
def applyPending (g : Group) (p : PendingState) : Group :=
  let p' : Pending := ⟨pairID p.id, p.consumer, p.deliveredAt, p.deliveries⟩
  { g with
    pending := putPending g.pending p'
    consumers :=
      if p.consumer ≠ [] ∧ p.consumer ∉ g.consumers.map Consumer.name then
        g.consumers ++ [⟨p.consumer, p.deliveredAt, p.deliveredAt⟩]
      else g.consumers }

/-- Pending entries lose owners that are gone, and come in the order of their ids. -/
def settlePending (g : Group) : Group :=
  { g with
    pending := sortPending (g.pending.map fun p =>
      if p.consumer ≠ [] ∧ p.consumer ∉ g.consumers.map Consumer.name then
        { p with consumer := [] } else p) }

/-- The delta of one group applied to the group. -/
def applyToGroup (op : GroupDelta) (g : Group) : Group :=
  let g := if op.set then
    { g with lastDeliveredID := pairID op.lastDelivered, entriesRead := op.entriesRead } else g
  let g := { g with consumers := op.consumers.foldl putConsumer g.consumers }
  let g := { g with
    pending := (g.pending.foldl putPending []).filter fun p => p.id ∉ op.delPending.map pairID }
  let g := op.pending.foldl applyPending g
  let g := { g with consumers := removeKeys Consumer.name g.consumers op.delConsumers }
  settlePending g

def applyGroupOp (groups : List Group) (op : GroupDelta) : List Group :=
  if op.remove then removeKey Group.name groups op.name
  else change Group.name groups op.name fun
    | some g => applyToGroup op g
    | none => applyToGroup op ⟨op.name, ⟨0, 0⟩, -1, [], []⟩

def applyGroupOps (groups : List Group) (ops : List GroupDelta) : List Group :=
  ops.foldl applyGroupOp groups

/-! ## Records -/

/-- `groupOpsFor`; `none` when the before-image is not available. -/
def groupOpsFor (item : Item) : Option (List GroupDelta) := do
  let (preStub, _) ← item.preStub
  let before ← decodePackedStream preStub
  let groups ← item.groups
  let (after, off) ← readStreamGroups groups 0 3
  if off ≠ groups.length then none else some (diffStreamGroups before.groups after)

def counters (b : Body) : StreamDelta where
  lastID := idPair b.lastID
  maxDeletedID := idPair b.maxDeletedID
  entriesAdded := UInt64.ofNat b.entriesAdded

/-- The delta of a stream the transaction saw created. -/
def createDelta (item : Item) (b : Body) : StreamDelta :=
  { counters b with
    create := true
    append := b.packedEntries
    appendCount := Int64.ofNat b.length
    groups := item.groups.getD [0]
    groupsSet := true }

/-- The delta of a stream that existed, from its journal. -/
def changeDelta (item : Item) (b : Body) (j : Journal) : StreamDelta :=
  let d : StreamDelta :=
    { counters b with
      append := j.appended
      appendCount := Int64.ofNat j.appendedCount
      removeThrough := (j.through.map idPair).getD (0, 0)
      hasRemoveThrough := j.through.isSome
      delete := j.deleted.flatMap idBytes }
  match item.groups with
  | none => d
  | some groups =>
    match groupOpsFor item with
    | some ops => { d with groupOps := ops }
    | none => { d with groups := groups, groupsSet := true }

/-- What `Records` says about one key: nothing at all when a delta cannot describe the change, or
no delta when there was none. -/
def Cell.delta (c : Cell) : Option (Option StreamDelta) :=
  match c.item with
  | none => some none
  | some item =>
    if item.lost then none
    else
      match c.slot with
      | none => if item.existed then none else some none
      | some ⟨.other _, _⟩ => none
      | some ⟨.stream _ log, _⟩ =>
        if !item.existed then some (some (createDelta item log))
        else
          match log.j with
          | none => none
          | some j =>
            let d := changeDelta item log j
            if !j.touched && d.groupOps.isEmpty && !d.groupsSet then some none
            else some (some d)

def deltaRecord (key : Bytes) (d : StreamDelta) : Record :=
  { key := some key, valueType := Engine.ValueType.stream.code, stream := some d }

/-- `Records`. -/
def records (s : Store) : Option (List Record) :=
  ((s.tx.getD []).mapM fun key => (s.cell key).delta.map fun d => d.map (deltaRecord key)).map
    (List.filterMap id)

/-! ## Replay -/

def parseEntries (data : Bytes) : Nat → Nat → Option StreamID → Option (List StreamEntry × Nat)
  | 0, off, _ => some ([], off)
  | n + 1, off, previous => do
      let id ← streamEntryIDAt data off
      if previous.any fun p => !p.less id then none
      else
        let (count, off) ← chunkUvarint data (off + 16)
        if count = 0 ∨ count > data.length then none
        else
          let (fields, off) ← chunkFields data count off
          let (rest, off) ← parseEntries data n off (some id)
          some (⟨id, fields⟩ :: rest, off)

/-- `parseStreamEntryBlock`: `count` ascending entries that fill the data. -/
def parseStreamEntryBlock (data : Bytes) (count : Int64) : Option (List StreamEntry) :=
  if (count < 0 ∨ data.length / 17 < count.toNatClampNeg) ∧ (count ≠ 0 ∨ data ≠ []) then none
  else do
    let (entries, off) ← parseEntries data count.toNatClampNeg 0 none
    if off ≠ data.length then none else some entries

/-- The ids of a deletion, 16 bytes each. -/
def parseIDs (data : Bytes) : Nat → Nat → List StreamID
  | 0, _ => []
  | n + 1, off =>
    match streamEntryIDAt data off with
    | none => []
    | some id => id :: parseIDs data n (off + 16)

/-- Appends the entries above `floor`. -/
def appendAbove (env : Env) (floor : StreamID) : List StreamEntry → Body → Option Body
  | [], b => some b
  | e :: es, b => do
      let b ← if floor.less e.id then b.append env e else some b
      appendAbove env floor es b

/-- `streamBodyFromEntries`: a log of its own, not yet in the registry. -/
def streamBodyFromEntries (env : Env) (p : PackedStream) : Option Body := do
  let b ← p.entries.foldlM (fun (b : Body) e => b.append { env with spill := none } e) {}
  let b := if b.chunks = [] then b else b.sealAt (b.chunks.length - 1)
  some (b.syncLog p.lastID p.maxDeletedID p.entriesAdded)

/-- Stores a stream in place of what was there. -/
def putStream (call : Call) (force : Bool) (stub : Bytes) (b : Body) (expiresAt : Int64) :
    CellM Unit := fun c =>
  if !force && !(call.admitGrowth c b.dataCap && call.admitPublish c stub) then
    (.error .outOfMemory, c)
  else (.ok (), { c with slot := some ⟨.stream stub (b.spillCold call.env), expiresAt⟩ })

/-- `installStreamLocked`. -/
def installStream (call : Call) (force : Bool) (p : PackedStream) (expiresAt : Int64) :
    CellM Unit := do
  let b ← Action.ofOption .panic (streamBodyFromEntries call.env p)
  let st : State := ⟨p.lastID, p.entriesAdded, p.maxDeletedID, p.groups, b⟩
  let stub ← Action.ofOption (stubRefusal st) (encodeStreamStub st)
  putStream call force stub b expiresAt

/-- The entries up to `d.RemoveThrough` go. -/
def removeThrough (d : StreamDelta) (b : Body) : Option Body :=
  if d.hasRemoveThrough then do
    let n ← b.countThrough (pairID d.removeThrough)
    if 0 < n then (b.trimFront n).map Prod.fst else some b
  else some b

/-- The entries named in `d.Delete` go. -/
def removeListed (d : StreamDelta) (b : Body) : Option Body :=
  if d.delete ≠ [] then (b.delete (parseIDs d.delete (d.delete.length / 16) 0)).map Prod.fst
  else some b

def applyToLog (env : Env) (d : StreamDelta) (entries : List StreamEntry) (b : Body) :
    Option Body := do
  let b ← appendAbove env b.lastID entries b
  let b ← removeThrough d b
  let b ← removeListed d b
  some (b.syncLog (laterID b.lastID (pairID d.lastID))
    (laterID b.maxDeletedID (pairID d.maxDeletedID))
    (max b.entriesAdded d.entriesAdded.toNat))

/-- The log may not be ahead of its counters. -/
def outrun (b : Body) : Bool :=
  (b.lastEntryID.any fun last => b.lastID.less last) || b.entriesAdded < b.length

/-- `admitStreamGrowth` of a delta, unless the caller must have it. -/
def admitDelta (call : Call) (force : Bool) (d : StreamDelta) : CellM Unit := fun c =>
  if !force && !call.admitGrowth c (d.append.length + 4096) then (.error .outOfMemory, c)
  else (.ok (), c)

def updateStream (call : Call) (force : Bool) (d : StreamDelta) (entries : List StreamEntry)
    (groups : List Group) (stub : Bytes) (log : Body) : CellM Unit := do
  let p ← Action.ofOption .corrupt (decodePackedStream stub)
  admitDelta call force d
  let log ← Action.ofOption .panic (applyToLog call.env d entries log)
  setLog log
  if outrun log then Action.fail .badDelta
  else if d.groupsSet || !d.groupOps.isEmpty then
    publishStreamState call
      ⟨log.lastID, log.entriesAdded, log.maxDeletedID,
        applyGroupOps (if d.groupsSet then groups else p.groups) d.groupOps, log⟩
  else pure ()

/-- The groups of a delta that has them all. -/
def deltaGroups (d : StreamDelta) : Option (List Group) :=
  if !d.groupsSet then some []
  else do
    let (groups, off) ← readStreamGroups d.groups 0 3
    if off ≠ d.groups.length then none else some groups

/-- A delta that does not create its stream needs one. -/
def liveStream (now : Int64) : CellM (Bytes × Body) := fun c =>
  match c.slot with
  | none => (.error .badDelta, c)
  | some ⟨value, expiresAt⟩ =>
    if Slot.expired ⟨value, expiresAt⟩ now then (.error .badDelta, c)
    else
      match value with
      | .other _ => (.error .badDelta, c)
      | .stream stub log => (.ok (stub, log), c)

/-- `applyStreamDelta`. -/
def applyStreamDelta (call : Call) (force : Bool) (d : StreamDelta) (expiresAtMS : Int64) :
    CellM Unit :=
  if d.delete.length % 16 ≠ 0 then Action.fail .badDelta
  else do
    let entries ← Action.ofOption .badDelta (parseStreamEntryBlock d.append d.appendCount)
    let groups ← Action.ofOption .badDelta (deltaGroups d)
    if d.groupOps.any fun op => op.name = [] then Action.fail .badDelta
    else if d.create then
      if d.entriesAdded.toNat < entries.length || (pairID d.lastID).less (pairID d.maxDeletedID) ||
          entries.getLast?.any fun e => (pairID d.lastID).less e.id then Action.fail .badDelta
      else
        installStream call force
          ⟨pairID d.lastID, d.entriesAdded.toNat, pairID d.maxDeletedID, entries, groups⟩
          expiresAtMS
    else do
      let (stub, log) ← liveStream call.now
      updateStream call force d entries groups stub log

/-- The records one after the other, as `restoreWithStreamDeltas` applies them. -/
def applyRecords (call : Call) (force : Bool) : List Record → StoreM Unit
  | [] => pure ()
  | r :: rs => do
      match r.key, r.stream with
      | some key, some d => onKey key (applyStreamDelta call force d r.expiresAtMS)
      | _, _ => pure ()
      applyRecords call force rs

end Stream
end SnugKV
