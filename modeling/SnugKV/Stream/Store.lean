import SnugKV.Lib.Action
import SnugKV.Stream.Journal
import SnugKV.Stream.Packed

/-!
# Store — stream keys in the store, and the transaction that watches them

`engine/stream_store.go` and the store side of `engine/stream_tx.go`.  A stream key has two parts:
the stored value, which is the packed consumer groups, and the entry log.  While a transaction
watches a key, changes leave notes in its item.

* `Cell` — what one key holds, with the item of the transaction that watches it;
* `publishStreamState`, `createStream`, `Cell.removed` — the ways a cell changes;
* `Store`, `beginStreamTx`, `rollback` — all keys.

The memory limit is a parameter of every call: it may refuse at each admission, by the state of the
key and the size asked for.
-/

namespace SnugKV
namespace Stream

open Lib

/-! ## Cells -/

inductive Value where
  | stream (stub : Bytes) (log : Body)
  /-- A value of any other type. -/
  | other (data : Bytes)
  deriving DecidableEq, Repr

structure Slot where
  value : Value
  /-- Milliseconds; zero without a deadline. -/
  expiresAt : Int64
  deriving DecidableEq, Repr

/-- `streamTxItem`.  The pointers to the log and its journal are the log in the cell. -/
structure Item where
  existed : Bool
  /-- Stored value and deadline before the first change. -/
  preStub : Option (Bytes × Int64) := none
  /-- Packed groups after the last change to them. -/
  groups : Option Bytes := none
  /-- `unsafe`: the key went away by other means. -/
  lost : Bool := false
  deriving DecidableEq, Repr

structure Cell where
  slot : Option Slot := none
  item : Option Item := none
  deriving DecidableEq, Repr

/-- The errors of the stream commands, with their texts. -/
inductive StreamError where
  /-- WRONGTYPE Operation against a key holding the wrong kind of value -/
  | wrongType
  /-- ERR wrong number of arguments for 'xadd' command -/
  | arity
  /-- ERR value is not an integer or out of range -/
  | range
  /-- ERR stream sequence number overflow -/
  | sequenceOverflow
  /-- ERR The ID specified in XADD is equal or smaller than the target stream top item -/
  | smallID
  /-- ERR The ID specified in XADD must be greater than 0-0 -/
  | zeroID
  /-- ERR stream entries-added counter overflow -/
  | counterOverflow
  /-- ERR stream exceeds 32 MiB limit -/
  | tooLarge
  /-- The memory limit. -/
  | outOfMemory
  /-- The packer refused the metadata: ERR invalid stream lifetime metadata, ERR duplicate stream
  consumer group, ERR invalid stream consumer metadata, ERR invalid stream pending metadata or
  ERR stream pending consumer does not exist -/
  | notPackable
  /-- The stored value does not decode. -/
  | corrupt
  /-- NOGROUP No such consumer group -/
  | noGroup
  /-- BUSYGROUP Consumer Group name already exists -/
  | busyGroup
  /-- ERR The XGROUP subcommand requires the key to exist. … -/
  | noKey
  /-- ERR entries-read must be valid -/
  | entriesRead
  /-- ERR min-idle-time must be non-negative -/
  | minIdle
  /-- ERR IDLE and TIME options are mutually exclusive -/
  | idleAndTime
  /-- ERR invalid TIME option -/
  | invalidTime
  /-- ERR invalid IDLE option -/
  | invalidIdle
  /-- ERR count should be greater than 0 -/
  | count
  /-- ERR mismatched stream key/ID count -/
  | mismatched
  /-- ERR recovered STREAM delta is invalid -/
  | badDelta
  /-- ERR stream change cannot be undone -/
  | cannotUndo
  /-- A corrupt chunk. -/
  | panic
  deriving DecidableEq, Repr

abbrev CellM (α : Type) : Type := Action Cell StreamError α

/-- What the machine decides around one call: its clock, the growth of buffers and the memory
limit. -/
structure Call where
  env : Env
  /-- `s.now()` in milliseconds, and its second reading in the calls that read it twice. -/
  now : Int64
  later : Int64
  /-- `admitStreamGrowth`. -/
  admitGrowth : Cell → Nat → Bool
  /-- The admission of `publish` for a stored value. -/
  admitPublish : Cell → Bytes → Bool

/-- `streamTooLarge`: without a spill directory the whole stream is bounded. -/
def streamTooLarge (call : Call) (logical stub : Nat) : Bool :=
  if call.env.spill.isSome then stub > maxPackedStreamBytes else logical > maxPackedStreamBytes

def Slot.expired (s : Slot) (now : Int64) : Bool := s.expiresAt ≠ 0 && s.expiresAt ≤ now

/-- `streamState`: the counters and groups are copies, the log is shared. -/
structure State where
  lastID : StreamID := ⟨0, 0⟩
  entriesAdded : Nat := 0
  maxDeletedID : StreamID := ⟨0, 0⟩
  groups : List Group := []
  log : Body := {}
  deriving DecidableEq, Repr

def State.packed (st : State) : PackedStream where
  lastID := st.lastID
  entriesAdded := st.entriesAdded
  maxDeletedID := st.maxDeletedID
  groups := st.groups

def encodeStreamStub (st : State) : Option Bytes := encodePackedStream st.packed

/-- The packed groups of `st` up to the `k`-th, with everything before them. -/
def stubSize (st : State) (k : Nat) : Nat :=
  (packedHead st.packed ++ putUvarint st.groups.length ++
    (st.groups.take k).flatMap groupBytes).length

/-- Why `encodeStreamStub` refuses `st`: the size is checked behind every group, the metadata of a
group before it is written. -/
def stubRefusal (st : State) : StreamError :=
  if st.lastID < st.maxDeletedID then .notPackable
  else if ∃ k < st.groups.length, GroupsValid (st.groups.take (k + 1)) ∧
      stubSize st (k + 1) > maxPackedStreamBytes then .tooLarge
  else if GroupsValid st.groups then .tooLarge else .notPackable

def streamLogicalSize (st : State) (stubLen : Nat) : Nat := st.log.dataBytes + stubLen

namespace Cell

/-- `remove` with `noteStreamRemoved`. -/
def removed (c : Cell) : Cell where
  slot := none
  item :=
    match c.slot with
    | some ⟨.stream _ _, _⟩ => c.item.map fun item => { item with lost := true }
    | _ => c.item

/-- `notePreStub`. -/
def notePreStub (c : Cell) (stub : Bytes) (expiresAt : Int64) : Cell :=
  { c with item := c.item.map fun item =>
      if !item.existed || item.preStub.isSome then item
      else { item with preStub := some (stub, expiresAt) } }

/-- `noteStreamGroups`. -/
def noteStreamGroups (c : Cell) (groups : List Group) : Cell :=
  { c with item := c.item.map fun item =>
      match appendStreamGroups [] groups with
      | none => { item with lost := true }
      | some packed => { item with groups := some packed } }

end Cell

/-- The live log of the key; an expired value is removed on the way. -/
def loadLog (now : Int64) : CellM (Option (Bytes × Body)) := fun c =>
  match c.slot with
  | none => (.ok none, c)
  | some s =>
    if s.expired now then (.ok none, c.removed)
    else
      match s.value with
      | .other _ => (.error .wrongType, c)
      | .stream stub log => (.ok (some (stub, log)), c)

/-- `streamStateFromEntry`. -/
def loadStream (now : Int64) : CellM (Option State) := do
  match ← loadLog now with
  | none => pure none
  | some (stub, log) =>
    let p ← Action.ofOption .corrupt (decodePackedStream stub)
    pure (some ⟨log.lastID, log.entriesAdded, log.maxDeletedID, p.groups, log⟩)

def setLog (log : Body) : CellM Unit := fun c =>
  match c.slot with
  | some ⟨.stream stub _, expiresAt⟩ =>
    (.ok (), { c with slot := some ⟨.stream stub log, expiresAt⟩ })
  | _ => (.error .panic, c)

/-- `publishStreamStateLocked`: stores the groups of `st`, with the deadline the key has. -/
def publishStreamState (call : Call) (st : State) : CellM Unit := do
  let stub ← Action.ofOption (stubRefusal st) (encodeStreamStub st)
  if streamTooLarge call (streamLogicalSize st stub.length) stub.length then
    Action.fail .tooLarge
  else fun c =>
    match c.slot with
    | some ⟨.stream old log, expiresAt⟩ =>
      let c := c.notePreStub old expiresAt
      if !call.admitPublish c stub then (.error .outOfMemory, c)
      else
        (.ok (), { c with slot := some ⟨.stream stub log, expiresAt⟩ }.noteStreamGroups st.groups)
    | _ => (.error .panic, c)

/-- `createStreamLocked`; the registry starts to spill the log it is given. -/
def createStream (call : Call) (st : State) : CellM Unit := do
  let stub ← Action.ofOption (stubRefusal st) (encodeStreamStub st)
  if streamTooLarge call (streamLogicalSize st stub.length) stub.length then
    Action.fail .tooLarge
  else fun c =>
    if !(call.admitGrowth c st.log.dataCap && call.admitPublish c stub) then
      (.error .outOfMemory, c)
    else
      (.ok (), Cell.noteStreamGroups
        { c with slot := some ⟨.stream stub (st.log.spillCold call.env), 0⟩ } st.groups)

end Stream
end SnugKV
