import SnugKV.Stream.Commands

/-!
# Group commands — XGROUP, XREADGROUP, XACK, XCLAIM and XAUTOCLAIM

The commands of `engine/stream_groups.go`, `engine/stream_group_delivery.go` and
`engine/stream_claim.go`.  They change the consumer groups of a stream and leave its entries alone.
-/

namespace SnugKV
namespace Stream

open Lib

/-! ## Names and counters -/

def streamConsumerIndex (consumers : List Consumer) (name : Bytes) : Option Nat :=
  consumers.findIdx? fun c => c.name = name

/-- `inferStreamGroupEntriesRead`; minus one when nothing can be inferred. -/
def inferStreamGroupEntriesRead (st : State) (id : StreamID) : Int64 :=
  if id = ⟨0, 0⟩ then 0
  else if st.entriesAdded > 2 ^ 63 - 1 then -1
  else if id = st.lastID then Int64.ofNat st.entriesAdded
  else if st.log.firstID = some id ∧ st.maxDeletedID = ⟨0, 0⟩ ∧
      st.entriesAdded = st.log.length then 1
  else -1

/-- The id argument of XGROUP: `$` or an id. -/
inductive GroupID where
  | last
  | exact (id : StreamID)
  deriving DecidableEq, Repr

def parseStreamGroupID (spec : GroupID) (last : StreamID) : StreamID :=
  match spec with
  | .last => last
  | .exact id => id

/-- `streamNowMillis`. -/
def streamNowMillis (now : Int64) : Int64 := if now < 0 then 0 else now

/-! ## XGROUP -/

def streamGroupCreate (call : Call) (group : Bytes) (spec : GroupID) (mkstream : Bool)
    (entriesRead : Int64) : CellM Unit :=
  if entriesRead < -1 then Action.fail .entriesRead
  else do
    let loaded ← loadStream call.now
    if loaded.isNone && !mkstream then Action.fail .noKey
    else
      let st := loaded.getD {}
      if (streamGroupIndex st.groups group).isSome then Action.fail .busyGroup
      else
        let id := parseStreamGroupID spec st.lastID
        let st := { st with groups := st.groups ++ [⟨group, id, entriesRead, [], []⟩] }
        if loaded.isNone then createStream call st else publishStreamState call st

def streamGroupDestroy (call : Call) (group : Bytes) : CellM Nat := do
  match ← loadStream call.now with
  | none => pure 0
  | some st =>
    match streamGroupIndex st.groups group with
    | none => pure 0
    | some gi =>
      publishStreamState call { st with groups := st.groups.eraseIdx gi }
      pure 1

/-- The live stream of a command that needs the group to exist, with the group and its place. -/
def loadGroup (now : Int64) (name : Bytes) : CellM (State × Nat × Group) := do
  match ← loadStream now with
  | none => Action.fail .noGroup
  | some st =>
    match streamGroupIndex st.groups name with
    | none => Action.fail .noGroup
    | some gi =>
      let group ← Action.ofOption .panic st.groups[gi]?
      pure (st, gi, group)

/-- Stores the groups of `st` with `group` in place `gi`. -/
def publishGroup (call : Call) (st : State) (gi : Nat) (group : Group) : CellM Unit :=
  publishStreamState call { st with groups := st.groups.set gi group }

def streamGroupSetID (call : Call) (name : Bytes) (spec : GroupID) (entriesRead : Option Int64) :
    CellM Unit :=
  if entriesRead.any (· < -1) then Action.fail .entriesRead
  else do
    let (st, gi, group) ← loadGroup call.now name
    publishGroup call st gi
      { group with
        lastDeliveredID := parseStreamGroupID spec st.lastID
        entriesRead := entriesRead.getD (-1) }

def streamGroupCreateConsumer (call : Call) (name consumer : Bytes) : CellM Nat := do
  let (st, gi, group) ← loadGroup call.now name
  if (streamConsumerIndex group.consumers consumer).isSome then pure 0
  else
    publishGroup call st gi
      { group with
        consumers := group.consumers ++ [⟨consumer, streamNowMillis call.later, 0⟩] }
    pure 1

def streamGroupDeleteConsumer (call : Call) (name consumer : Bytes) : CellM Nat := do
  let (st, gi, group) ← loadGroup call.now name
  match streamConsumerIndex group.consumers consumer with
  | none => pure 0
  | some ci =>
    publishGroup call st gi
      { group with
        pending := group.pending.filter fun p => p.consumer ≠ consumer
        consumers := group.consumers.eraseIdx ci }
    pure (group.pending.filter fun p => p.consumer = consumer).length

/-! ## XREADGROUP -/

/-- `ensureStreamConsumer`, with the activity time its callers may set. -/
def ensureStreamConsumer (consumers : List Consumer) (name : Bytes) (nowMS : Int64)
    (active : Bool) : List Consumer :=
  match streamConsumerIndex consumers name with
  | none => consumers ++ [⟨name, nowMS, nowMS⟩]
  | some i =>
    consumers.modify i fun c =>
      { c with seenAt := nowMS, activeAt := if active then nowMS else c.activeAt }

/-- The cursor of XREADGROUP: `>` or an id. -/
inductive ReadCursor where
  | new
  | after (id : StreamID)
  deriving DecidableEq, Repr

def deliver (st : State) (consumer : Bytes) (nowMS : Int64) (noAck : Bool) (group : Group)
    (e : StreamEntry) : Group :=
  { group with
    lastDeliveredID := e.id
    entriesRead :=
      if 0 ≤ group.entriesRead then group.entriesRead + 1
      else if e.id = st.lastID ∧ st.entriesAdded ≤ 2 ^ 63 - 1 then Int64.ofNat st.entriesAdded
      else group.entriesRead
    pending :=
      if noAck then group.pending else group.pending ++ [⟨e.id, consumer, nowMS, 1⟩] }

/-- New entries for the group, at most `count`. -/
def readNew (st : State) (consumer : Bytes) (nowMS : Int64) (count : Int) (noAck : Bool)
    (group : Group) : Option (Group × List StreamEntry) :=
  let group :=
    if group.entriesRead < 0 ∧ 0 ≤ inferStreamGroupEntriesRead st group.lastDeliveredID then
      { group with entriesRead := inferStreamGroupEntriesRead st group.lastDeliveredID }
    else group
  st.log.forEachFrom group.lastDeliveredID false
    (fun (r : Group × List StreamEntry) e =>
      let entries := r.2 ++ [e]
      ((deliver st consumer nowMS noAck r.1 e, entries), (entries.length : Int) ≠ count))
    (group, [])

/-- The consumer's own pending entries behind `after`, at most `count`. -/
def readPendingOf (log : Body) (consumer : Bytes) (after : StreamID) (nowMS : Int64)
    (count : Int) : List Pending → List StreamEntry → Option (List Pending × List StreamEntry)
  | [], entries => some ([], entries)
  | p :: ps, entries =>
    if p.consumer ≠ consumer || !after.less p.id then do
      let (ps, entries) ← readPendingOf log consumer after nowMS count ps entries
      some (p :: ps, entries)
    else do
      let found ← log.get p.id
      let entries := entries ++ [found.getD ⟨p.id, []⟩]
      let p := { p with deliveredAt := nowMS, deliveries := p.deliveries + 1 }
      if (entries.length : Int) = count then some (p :: ps, entries)
      else
        let (ps, entries) ← readPendingOf log consumer after nowMS count ps entries
        some (p :: ps, entries)

def streamGroupReadKey (call : Call) (name consumer : Bytes) (cursor : ReadCursor) (count : Int)
    (noAck : Bool) : CellM (List StreamEntry) := do
  let (st, gi, group) ← loadGroup call.now name
  let nowMS := streamNowMillis call.now
  let group' := { group with
    consumers := ensureStreamConsumer group.consumers consumer nowMS false }
  let (group', entries) ← match cursor with
    | .new => Action.ofOption .panic (readNew st consumer nowMS count noAck group')
    | .after id => do
        let (pending, entries) ← Action.ofOption .panic
          (readPendingOf st.log consumer id nowMS count group'.pending [])
        pure ({ group' with pending := pending }, entries)
  let group' := if entries = [] then group' else { group' with
    consumers := ensureStreamConsumer group'.consumers consumer nowMS true }
  publishGroup call st gi group'
  pure entries

/-! ## XACK -/

def streamGroupAck (call : Call) (name : Bytes) (ids : List StreamID) : CellM Nat := do
  let (st, gi, group) ← loadGroup call.now name
  let acked := (group.pending.filter fun p => p.id ∈ ids).length
  if acked = 0 then pure 0
  else
    publishGroup call st gi { group with pending := group.pending.filter fun p => p.id ∉ ids }
    pure acked

/-! ## XCLAIM and XAUTOCLAIM -/

structure ClaimOptions where
  idleMillis : Option Int64 := none
  timeMillis : Option Int64 := none
  retryCount : Option UInt64 := none
  force : Bool := false
  justID : Bool := false
  lastID : Option StreamID := none
  deriving DecidableEq, Repr

def streamPendingIdle (nowMS : Int64) (p : Pending) : Int64 :=
  let idle := nowMS - p.deliveredAt
  if idle < 0 then 0 else idle

def claimDeliveredAt (nowMS : Int64) (o : ClaimOptions) : Except StreamError Int64 :=
  match o.timeMillis, o.idleMillis with
  | some _, some _ => .error .idleAndTime
  | some time, none => if time < 0 then .error .invalidTime else .ok time
  | none, some idle =>
    if idle < 0 then .error .invalidIdle
    else if nowMS ≤ idle then .ok 0
    else .ok (nowMS - idle)
  | none, none => .ok nowMS

/-- What the claim loops gather. -/
structure Claim where
  group : Group
  changed : Bool
  entries : List StreamEntry := []
  ids : List StreamID := []

def Claim.take (c : Claim) (consumer : Bytes) (nowMS : Int64) (pending : List Pending)
    (e : StreamEntry) (id : StreamID) : Claim :=
  { group := { c.group with
      pending := pending
      consumers := ensureStreamConsumer c.group.consumers consumer nowMS true }
    changed := true
    entries := c.entries ++ [e]
    ids := c.ids ++ [id] }

def claimOne (consumer : Bytes) (nowMS deliveredAt minIdleMS : Int64) (o : ClaimOptions)
    (c : Claim) (id : StreamID) (found : Option StreamEntry) : Claim :=
  match streamPendingIndex c.group.pending id, found with
  | none, none => c
  | none, some e =>
    if !o.force then c
    else c.take consumer nowMS
      (c.group.pending ++ [⟨id, consumer, deliveredAt, o.retryCount.getD 1⟩]) e id
  | some pi, none =>
    { c with
      group := { c.group with pending := c.group.pending.eraseIdx pi }
      changed := true }
  | some pi, some e =>
    match c.group.pending[pi]? with
    | none => c
    | some p =>
      if streamPendingIdle nowMS p < minIdleMS then c
      else
        let deliveries := match o.retryCount with
          | some n => n
          | none => if o.justID then p.deliveries else p.deliveries + 1
        c.take consumer nowMS
          (c.group.pending.set pi ⟨p.id, consumer, deliveredAt, deliveries⟩) e id

def claimLoop (log : Body) (consumer : Bytes) (nowMS deliveredAt minIdleMS : Int64)
    (o : ClaimOptions) : List StreamID → Claim → Option Claim
  | [], c => some c
  | id :: ids, c => do
      let found ← log.get id
      claimLoop log consumer nowMS deliveredAt minIdleMS o ids
        (claimOne consumer nowMS deliveredAt minIdleMS o c id found)

/-- The consumer is seen, when the group knows it. -/
def seeConsumer (group : Group) (consumer : Bytes) (nowMS : Int64) : Claim :=
  match streamConsumerIndex group.consumers consumer with
  | none => ⟨group, false, [], []⟩
  | some ci =>
    ⟨{ group with consumers := group.consumers.modify ci fun c => { c with seenAt := nowMS } },
      true, [], []⟩

def streamGroupClaim (call : Call) (name consumer : Bytes) (minIdleMS : Int64)
    (ids : List StreamID) (o : ClaimOptions) : CellM (List StreamEntry × List StreamID) :=
  if minIdleMS < 0 then Action.fail .minIdle
  else do
    let (st, gi, group) ← loadGroup call.now name
    let nowMS := streamNowMillis call.later
    let deliveredAt ← Action.ofExcept (claimDeliveredAt nowMS o)
    let c ← Action.ofOption .panic (claimLoop st.log consumer nowMS deliveredAt minIdleMS o ids
      (seeConsumer group consumer nowMS))
    let c := match o.lastID with
      | none => c
      | some id => { c with group := { c.group with lastDeliveredID := id }, changed := true }
    if c.changed then
      publishGroup call st gi { c.group with pending := sortPending c.group.pending }
    pure (c.entries, c.ids)

/-- What XAUTOCLAIM reports: the next start, the claimed entries and the deleted ids. -/
structure AutoClaim where
  next : StreamID
  entries : List StreamEntry
  ids : List StreamID
  deletedIDs : List StreamID
  deriving DecidableEq, Repr

/-- The loop of XAUTOCLAIM from position `i`, for `fuel` more entries to scan and `count` more to
claim. -/
def autoClaimLoop (log : Body) (consumer : Bytes) (nowMS minIdleMS : Int64) (justID : Bool) :
    Nat → Nat → Nat → Claim → List StreamID → Option (Claim × Nat × List StreamID)
  | 0, _, i, c, deleted => some (c, i, deleted)
  | scan + 1, count, i, c, deleted =>
    match c.group.pending[i]? with
    | none => some (c, i, deleted)
    | some p =>
      if count = 0 then some (c, i, deleted)
      else do
        let found ← log.get p.id
        match found with
        | none =>
          let c := { c with
            group := { c.group with pending := c.group.pending.eraseIdx i }
            changed := true }
          autoClaimLoop log consumer nowMS minIdleMS justID scan count i c
            (deleted ++ [p.id])
        | some e =>
          if minIdleMS ≤ streamPendingIdle nowMS p then
            let p' : Pending := ⟨p.id, consumer, nowMS,
              if justID then p.deliveries else p.deliveries + 1⟩
            autoClaimLoop log consumer nowMS minIdleMS justID scan (count - 1) (i + 1)
              (c.take consumer nowMS (c.group.pending.set i p') e p.id) deleted
          else autoClaimLoop log consumer nowMS minIdleMS justID scan count (i + 1) c deleted

/-- `scanLimit`: ten entries looked at for each one to claim, within `int`. -/
def scanLimit (count : Nat) : Nat :=
  if (2 ^ 63 - 1) / 10 < count then 2 ^ 63 - 1 else count * 10

def streamGroupAutoClaim (call : Call) (name consumer : Bytes) (minIdleMS : Int64)
    (start : StreamID) (count : Int) (justID : Bool) : CellM AutoClaim :=
  if minIdleMS < 0 ∨ count ≤ 0 then Action.fail .range
  else do
    let (st, gi, group) ← loadGroup call.now name
    let group := { group with pending := sortPending group.pending }
    let nowMS := streamNowMillis call.later
    let i := searchList group.pending fun p => !p.id.less start
    let (c, i, deleted) ← Action.ofOption .panic
      (autoClaimLoop st.log consumer nowMS minIdleMS justID (scanLimit count.toNat) count.toNat i
        (seeConsumer group consumer nowMS) [])
    if c.changed then publishGroup call st gi c.group
    pure ⟨((c.group.pending[i]?).map Pending.id).getD ⟨0, 0⟩, c.entries, c.ids, deleted⟩

end Stream
end SnugKV
