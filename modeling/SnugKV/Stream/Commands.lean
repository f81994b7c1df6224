import SnugKV.Stream.Store

/-!
# Commands — XADD, XDEL, XTRIM, XDELEX and XACKDEL

The commands of `engine/stream.go` and `engine/stream_ref_policy.go` that change the entries of a
stream.  Every command acts on the cell of its key.

* `resolveStreamAddID` — the id of a new entry, above the last generated one;
* `streamAdd`, `streamDelete`, `streamTrimMaxLen`, `streamTrimMinID` — the older commands;
* `planTrimMaxLen`, `planTrimMinID`, `applyTrimPlans` — trims that respect pending references;
* `streamAddWithPolicy`, `streamTrimWithPolicy`, `streamDeleteEx`, `streamAckDelete`.
-/

namespace SnugKV
namespace Stream

open Lib

/-! ## Ids of new entries -/

/-- The id argument of XADD: `*`, `ms-*` or `ms-seq`. -/
inductive AddID where
  | auto
  | millis (ms : UInt64)
  | exact (id : StreamID)
  deriving DecidableEq, Repr

def nextAutomaticStreamID (nowMS : UInt64) (last : StreamID) : Except StreamError StreamID :=
  let nowMS := if nowMS < last.millis then last.millis else nowMS
  if nowMS = last.millis then
    if last.sequence = 0xffffffffffffffff then .error .sequenceOverflow
    else .ok ⟨nowMS, last.sequence + 1⟩
  else .ok ⟨nowMS, if nowMS = 0 then 1 else 0⟩

def nextPartialStreamID (ms : UInt64) (last : StreamID) : Except StreamError StreamID :=
  if ms < last.millis then .error .smallID
  else if ms = last.millis then
    if last.sequence = 0xffffffffffffffff then .error .sequenceOverflow
    else .ok ⟨ms, last.sequence + 1⟩
  else .ok ⟨ms, if ms = 0 then 1 else 0⟩

def resolveStreamAddID (spec : AddID) (nowMS : UInt64) (last : StreamID) :
    Except StreamError StreamID :=
  match spec with
  | .auto => nextAutomaticStreamID nowMS last
  | .millis ms => nextPartialStreamID ms last
  | .exact id =>
    if id.millis = 0 ∧ id.sequence = 0 then .error .zeroID
    else if !last.less id && (last.millis ≠ 0 || last.sequence ≠ 0) then .error .smallID
    else .ok id

/-- `uint64(now.UnixMilli())`, zero before the epoch. -/
def Call.nowMS (call : Call) : UInt64 := if 0 < call.now then call.now.toUInt64 else 0

/-! ## XADD -/

/-- The field-value pairs of a command line; Go slices are shorter than `2 ^ 63`. -/
structure Fields where
  list : List StreamField
  fits : list.length < 2 ^ 63 ∧ ∀ f ∈ list, f.Fits

structure AddOptions where
  noMkStream : Bool := false
  maxLen : Option Int := none
  minID : Option StreamID := none
  limit : Int := 0
  deriving DecidableEq, Repr

/-- `streamStubAllowance`. -/
def streamStubAllowance (groups : List Group) : Nat :=
  64 + (groups.map fun g =>
    g.name.length + 40 + g.consumers.length * 24 +
      (g.consumers.map fun c => c.name.length).sum + g.pending.length * 40).sum

/-- `streamAddGrowth`. -/
def streamAddGrowth (size : Nat) : Nat := size + 64

/-- The size and memory checks before an append. -/
def admitEntry (call : Call) (st : State) (size : Nat) : CellM Unit := fun c =>
  let allowance := streamStubAllowance st.groups
  if streamTooLarge call (st.log.dataBytes + size + allowance) allowance then
    (.error .tooLarge, c)
  else if !call.admitGrowth c (streamAddGrowth size) then (.error .outOfMemory, c)
  else (.ok (), c)

/-- `Append`, `EntriesAdded++` and `syncLog`.  A log outside the registry does not spill. -/
def State.append (call : Call) (existing : Bool) (st : State) (id : StreamID)
    (fields : List StreamField) : Option State :=
  let env := if existing then call.env else { call.env with spill := none }
  let added := (st.entriesAdded + 1) % 2 ^ 64
  (st.log.append env ⟨id, fields⟩).map fun log =>
    { st with
      lastID := id
      entriesAdded := added
      log := log.syncLog id st.maxDeletedID added }

/-- How many of `len` entries go to leave `maxLen`, at most `limit` of them. -/
def excess (len : Nat) (maxLen limit : Int) : Int :=
  let remove := (len : Int) - maxLen
  if 0 < remove ∧ 0 < limit ∧ limit < remove then limit else remove

/-- The trim that XADD does behind the append. -/
def trimByOptions (log : Body) (o : AddOptions) : Option Body :=
  match o.maxLen, o.minID with
  | some maxLen, _ =>
    let remove := excess log.length maxLen o.limit
    if 0 < remove then (log.trimFront remove).map Prod.fst else some log
  | none, some minID => do
      let remove ← log.countBefore minID o.limit
      if 0 < remove then (log.trimFront remove).map Prod.fst else some log
  | none, none => some log

def addEntry (call : Call) (existing : Bool) (st : State) (spec : AddID) (fields : Fields)
    (o : AddOptions) : CellM (Option StreamID) := do
  let id ← Action.ofExcept (resolveStreamAddID spec call.nowMS st.lastID)
  if st.entriesAdded = 2 ^ 64 - 1 then Action.fail .counterOverflow
  else
    admitEntry call st (streamEntrySize fields.list)
    let st ← Action.ofOption .panic (st.append call existing id fields.list)
    let log ← Action.ofOption .panic (trimByOptions st.log o)
    if existing then setLog log else createStream call { st with log := log }
    pure (some id)

def streamAdd (call : Call) (spec : AddID) (fields : Fields) (o : AddOptions) :
    CellM (Option StreamID) :=
  if fields.list = [] then Action.fail .arity
  else if o.maxLen.any (· < 0) || o.limit < 0 || o.maxLen.isSome && o.minID.isSome then
    Action.fail .range
  else do
    match ← loadStream call.now with
    | none => if o.noMkStream then pure none else addEntry call false {} spec fields o
    | some st => addEntry call true st spec fields o

/-! ## XDEL and XTRIM -/

/-- The ids of `ids` that the log has. -/
def existingIDs (log : Body) : List StreamID → Option (List StreamID)
  | [] => some []
  | id :: ids => do
      let has ← log.has id
      let rest ← existingIDs log ids
      some (if has then id :: rest else rest)

def laterID (a b : StreamID) : StreamID := if a.less b then b else a

def streamDelete (call : Call) (ids : List StreamID) : CellM Nat := do
  match ← loadLog call.now with
  | none => pure 0
  | some (_, log) =>
    let existing ← Action.ofOption .panic (existingIDs log ids)
    if existing = [] then pure 0
    else
      let (log, deleted) ← Action.ofOption .panic (log.delete existing)
      setLog (log.syncLog log.lastID (existing.foldl laterID log.maxDeletedID)
        log.entriesAdded)
      pure deleted

def streamTrimMaxLen (call : Call) (maxLen limit : Int) : CellM Nat :=
  if maxLen < 0 ∨ limit < 0 then Action.fail .range
  else do
    match ← loadLog call.now with
    | none => pure 0
    | some (_, log) =>
      let remove := excess log.length maxLen limit
      if remove ≤ 0 then pure 0
      else
        let (log, removed) ← Action.ofOption .panic (log.trimFront remove)
        setLog log
        pure removed

def streamTrimMinID (call : Call) (minID : StreamID) (limit : Int) : CellM Nat :=
  if limit < 0 then Action.fail .range
  else do
    match ← loadLog call.now with
    | none => pure 0
    | some (_, log) =>
      let remove ← Action.ofOption .panic (log.countBefore minID limit)
      if remove = 0 then pure 0
      else
        let (log, removed) ← Action.ofOption .panic (log.trimFront remove)
        setLog log
        pure removed

/-! ## Reference policies -/

/-- `StreamRefPolicy`: KEEPREF, DELREF and ACKED. -/
inductive RefPolicy where
  | keep
  | delete
  | acked
  deriving DecidableEq, Repr

def streamPendingIndex (pending : List Pending) (id : StreamID) : Option Nat :=
  pending.findIdx? fun p => p.id = id

def streamAckedByAllGroups (groups : List Group) (id : StreamID) : Bool :=
  !groups.isEmpty &&
    groups.all fun g => !g.lastDeliveredID.less id && (streamPendingIndex g.pending id).isNone

/-- `streamRemovePendingRefs`: the groups without the references, and how many went. -/
def streamRemovePendingRefs (groups : List Group) (ids : List StreamID) : List Group × Nat :=
  (groups.map fun g => { g with pending := g.pending.filter fun p => p.id ∉ ids },
    (groups.map fun g => (g.pending.filter fun p => p.id ∈ ids).length).sum)

def streamRemoveOnePendingRef (g : Group) (id : StreamID) : Group × Bool :=
  match streamPendingIndex g.pending id with
  | none => (g, false)
  | some i => ({ g with pending := g.pending.eraseIdx i }, true)

def streamPolicyAllowsTrim (groups : List Group) (id : StreamID) (policy : RefPolicy) : Bool :=
  if policy ≠ .acked || groups.isEmpty then true else streamAckedByAllGroups groups id

/-- What the planning loops count. -/
structure Plan where
  ids : List StreamID := []
  examined : Nat := 0
  skipped : Bool := false

/-- `streamTrimPlan`; `front` is the length of the front when the plan is one. -/
structure TrimPlan where
  ids : List StreamID
  front : Option Nat

def examine (groups : List Group) (policy : RefPolicy) (p : Plan) (id : StreamID) : Plan :=
  let p := { p with examined := p.examined + 1 }
  if !streamPolicyAllowsTrim groups id policy then { p with skipped := true }
  else { p with ids := p.ids ++ [id] }

/-- `finishTrimPlan`: DELREF drops the pending references of what goes. -/
def finishTrimPlan (st : State) (p : Plan) (policy : RefPolicy) : TrimPlan × State × Bool :=
  let plan : TrimPlan := ⟨p.ids, if p.ids = [] || p.skipped then none else some p.ids.length⟩
  if p.ids = [] then (plan, st, false)
  else if policy = .delete then
    let (groups, removed) := streamRemovePendingRefs st.groups p.ids
    (plan, { st with groups := groups }, 0 < removed)
  else (plan, st, false)

def planTrimMaxLen (st : State) (maxLen limit : Int) (policy : RefPolicy) :
    Option (TrimPlan × State × Bool) :=
  let need := (st.log.length : Int) - maxLen
  if need ≤ 0 then some (⟨[], none⟩, st, false)
  else do
    let p ← st.log.forEachID
      (fun (p : Plan) id =>
        if need ≤ p.ids.length ∨ 0 < limit ∧ limit ≤ p.examined then (p, false)
        else (examine st.groups policy p id, true)) {}
    some (finishTrimPlan st p policy)

def planTrimMinID (st : State) (minID : StreamID) (limit : Int) (policy : RefPolicy)
    (already : List StreamID) : Option (TrimPlan × State × Bool) := do
  let p ← st.log.forEachID
    (fun (p : Plan) id =>
      if id ∈ already then (p, true)
      else if !id.less minID then (p, false)
      else if 0 < limit ∧ limit ≤ p.examined then (p, false)
      else (examine st.groups policy p id, true))
    { skipped := !already.isEmpty }
  some (finishTrimPlan st p policy)

def applyTrimPlans (log : Body) (plans : List TrimPlan) : Option (Body × Nat) :=
  let plans := plans.filter fun p => p.ids ≠ []
  if plans = [] then some (log, 0)
  else if plans.all fun p => p.front.isSome then
    log.trimFront ((plans.map fun p => p.front.getD 0).sum)
  else log.delete (plans.flatMap TrimPlan.ids)

/-! ## Commands with a policy -/

def planByLen (st : State) (o : AddOptions) (policy : RefPolicy) :
    Option (List TrimPlan × State × Bool) :=
  match o.maxLen with
  | none => some ([], st, false)
  | some maxLen =>
    (planTrimMaxLen st maxLen o.limit policy).map fun (plan, st, changed) => ([plan], st, changed)

def planByID (st : State) (o : AddOptions) (policy : RefPolicy) (already : List StreamID) :
    Option (List TrimPlan × State × Bool) :=
  match o.minID with
  | none => some ([], st, false)
  | some minID =>
    (planTrimMinID st minID o.limit policy already).map fun (plan, st, changed) =>
      ([plan], st, changed)

def planAdd (st : State) (o : AddOptions) (policy : RefPolicy) :
    Option (List TrimPlan × State × Bool) := do
  let (byLen, st, changed) ← planByLen st o policy
  let (byID, st, changed') ← planByID st o policy (byLen.flatMap TrimPlan.ids)
  some (byLen ++ byID, st, changed || changed')

/-- Puts the log back when the groups could not be published. -/
def rollbackLog (m : AppendMark) (c : Cell) : Cell :=
  match c.slot with
  | some ⟨.stream stub log, expiresAt⟩ =>
    { c with slot := some ⟨.stream stub ((log.rollback m).getD log), expiresAt⟩ }
  | _ => c

def addEntryWithPolicy (call : Call) (existing : Bool) (st : State) (spec : AddID)
    (fields : Fields) (o : AddOptions) (policy : RefPolicy) : CellM (Option StreamID) := do
  let id ← Action.ofExcept (resolveStreamAddID spec call.nowMS st.lastID)
  admitEntry call st (streamEntrySize fields.list)
  let mark := st.log.mark
  let st ← Action.ofOption .panic (st.append call existing id fields.list)
  let (plans, st, changed) ← Action.ofOption .panic (planAdd st o policy)
  if existing then
    setLog st.log
    if changed then Action.onError (publishStreamState call st) (rollbackLog mark)
    let (log, _) ← Action.ofOption .panic (applyTrimPlans st.log plans)
    setLog log
  else
    let (log, _) ← Action.ofOption .panic (applyTrimPlans st.log plans)
    createStream call { st with log := log }
  pure (some id)

def streamAddWithPolicy (call : Call) (spec : AddID) (fields : Fields) (o : AddOptions)
    (policy : RefPolicy) : CellM (Option StreamID) :=
  if fields.list = [] then Action.fail .arity
  else if o.maxLen.any (· < 0) || o.limit < 0 then Action.fail .range
  else do
    match ← loadStream call.now with
    | none =>
      if o.noMkStream then pure none else addEntryWithPolicy call false {} spec fields o policy
    | some st => addEntryWithPolicy call true st spec fields o policy

def streamTrimWithPolicy (call : Call) (plan : State → Option (TrimPlan × State × Bool)) :
    CellM Nat := do
  match ← loadStream call.now with
  | none => pure 0
  | some st =>
    let (plan, st, changed) ← Action.ofOption .panic (plan st)
    if plan.ids = [] then pure 0
    else
      if changed then publishStreamState call st
      let (log, removed) ← Action.ofOption .panic (applyTrimPlans st.log [plan])
      setLog log
      pure removed

def streamTrimMaxLenWithPolicy (call : Call) (maxLen limit : Int) (policy : RefPolicy) :
    CellM Nat :=
  if maxLen < 0 ∨ limit < 0 then Action.fail .range
  else streamTrimWithPolicy call fun st => planTrimMaxLen st maxLen limit policy

def streamTrimMinIDWithPolicy (call : Call) (minID : StreamID) (limit : Int)
    (policy : RefPolicy) : CellM Nat :=
  if limit < 0 then Action.fail .range
  else streamTrimWithPolicy call fun st => planTrimMinID st minID limit policy []

/-- What the loops of XDELEX and XACKDEL gather. -/
structure Gather where
  st : State
  toDelete : List StreamID := []
  changed : Bool := false
  statuses : List Int := []

/-- `streamRemovePendingRefs` for one id, under DELREF only; says whether a reference went. -/
def dropRefs (policy : RefPolicy) (g : Gather) (id : StreamID) : Gather × Bool :=
  if policy = .delete then
    let (groups, removed) := streamRemovePendingRefs g.st.groups [id]
    ({ g with st := { g.st with groups := groups }, changed := g.changed || 0 < removed },
      0 < removed)
  else (g, false)

/-- Deletes the entry unless ACKED forbids it. -/
def settleID (policy : RefPolicy) (g : Gather) (id : StreamID) : Gather :=
  if policy = .acked && !streamAckedByAllGroups g.st.groups id then
    { g with statuses := g.statuses ++ [2] }
  else
    { g with
      toDelete := g.toDelete ++ [id]
      st := { g.st with maxDeletedID := laterID g.st.maxDeletedID id }
      statuses := g.statuses ++ [1] }

def deleteExLoop (policy : RefPolicy) : List StreamID → Gather → Option Gather
  | [], g => some g
  | id :: ids, g => do
      let has ← g.st.log.has id
      let present := id ∉ g.toDelete && has
      let (g, _) := dropRefs policy g id
      deleteExLoop policy ids
        (if present then settleID policy g id else { g with statuses := g.statuses ++ [-1] })

/-- `commitStreamChange`. -/
def commitStreamChange (call : Call) (g : Gather) : CellM Unit :=
  if !g.changed && g.toDelete.isEmpty then pure ()
  else do
    if g.changed then publishStreamState call g.st
    let (log, _) ← Action.ofOption .panic (g.st.log.delete g.toDelete)
    setLog (log.syncLog g.st.lastID g.st.maxDeletedID g.st.entriesAdded)

def streamDeleteEx (call : Call) (ids : List StreamID) (policy : RefPolicy) :
    CellM (List Int) := do
  match ← loadStream call.now with
  | none => pure (ids.map fun _ => -1)
  | some st =>
    let g ← Action.ofOption .panic (deleteExLoop policy ids { st := st })
    commitStreamChange call g
    pure g.statuses

def streamGroupIndex (groups : List Group) (name : Bytes) : Option Nat :=
  groups.findIdx? fun g => g.name = name

/-- `streamRemoveOnePendingRef` on the group at `gi`. -/
def ackRef (gi : Nat) (g : Gather) (id : StreamID) : Gather × Bool :=
  match g.st.groups[gi]? with
  | none => (g, false)
  | some group =>
    let (group, acked) := streamRemoveOnePendingRef group id
    ({ g with
      st := { g.st with groups := g.st.groups.set gi group }
      changed := g.changed || acked }, acked)

def ackDeleteLoop (policy : RefPolicy) (gi : Nat) : List StreamID → Gather → Option Gather
  | [], g => some g
  | id :: ids, g => do
      let (g, acked) := ackRef gi g id
      let (g, dropped) := dropRefs policy g id
      let has ← g.st.log.has id
      ackDeleteLoop policy gi ids
        (if id ∈ g.toDelete || !has then
          { g with statuses := g.statuses ++ [if acked || dropped then 1 else -1] }
        else settleID policy g id)

def streamAckDelete (call : Call) (group : Bytes) (ids : List StreamID) (policy : RefPolicy) :
    CellM (List Int) := do
  match ← loadStream call.now with
  | none => pure (ids.map fun _ => -1)
  | some st =>
    let gi ← Action.ofOption .noGroup (streamGroupIndex st.groups group)
    let g ← Action.ofOption .panic (ackDeleteLoop policy gi ids { st := st })
    commitStreamChange call g
    pure g.statuses

end Stream
end SnugKV
