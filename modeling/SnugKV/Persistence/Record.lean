import SnugKV.Lib.Json.Fields

/-!
# Persistence records — what a log frame carries

The structures of `persistence/log.go` with the names, the order and the `omitempty` marks of
their JSON fields.  A slice that is written even when it is empty tells a nil slice from an empty
one (`Option Bytes`); for the others the difference is lost in the text.

`Record.mapStrings` goes through the Go strings of a record, the only parts that JSON can change:
`lawful_record`.
-/

namespace SnugKV
namespace Persistence

open Lib Lib.Json List

/-! ## Structures -/

structure ReplicationCheckpoint where
  masterHost : Bytes := []
  masterPort : Int64 := 0
  masterRunID : Bytes := []
  offset : Int64 := 0
  redisStream : Bool := false
  clear : Bool := false
deriving DecidableEq

/-- One PUBLISH or SPUBLISH. -/
structure PublishEvent where
  channel : Option Bytes := none
  message : Option Bytes := none
  shard : Bool := false
deriving DecidableEq

/-- One consumer of a group. -/
structure ConsumerState where
  name : Bytes := []
  seenAt : Int64 := 0
  activeAt : Int64 := 0
deriving DecidableEq

/-- One delivered, unacknowledged entry. -/
structure PendingState where
  id : UInt64 × UInt64 := (0, 0)
  consumer : Bytes := []
  deliveredAt : Int64 := 0
  deliveries : UInt64 := 0
deriving DecidableEq

/-- The change to one consumer group. -/
structure GroupDelta where
  name : Bytes := []
  remove : Bool := false
  set : Bool := false
  lastDelivered : UInt64 × UInt64 := (0, 0)
  entriesRead : Int64 := 0
  consumers : List ConsumerState := []
  delConsumers : List Bytes := []
  pending : List PendingState := []
  delPending : List (UInt64 × UInt64) := []
deriving DecidableEq

/-- The change one command made to one stream. -/
structure StreamDelta where
  create : Bool := false
  append : Bytes := []
  appendCount : Int64 := 0
  removeThrough : UInt64 × UInt64 := (0, 0)
  hasRemoveThrough : Bool := false
  delete : Bytes := []
  lastID : UInt64 × UInt64 := (0, 0)
  maxDeletedID : UInt64 × UInt64 := (0, 0)
  entriesAdded : UInt64 := 0
  groups : Bytes := []
  groupsSet : Bool := false
  groupOps : List GroupDelta := []
deriving DecidableEq

structure Record where
  reset : Bool := false
  key : Option Bytes := none
  value : Bytes := []
  expiresAtMS : Int64 := 0
  deleted : Bool := false
  valueType : UInt8 := 0
  replication : Option ReplicationCheckpoint := none
  stream : Option StreamDelta := none
  publish : Option PublishEvent := none
deriving DecidableEq

/-! ## JSON -/

def ReplicationCheckpoint.fields : List (FieldCodec ReplicationCheckpoint) :=
  [field "master_host" stringKind true (·.masterHost) (fun a r => { r with masterHost := a }),
    field "master_port" int64Kind true (·.masterPort) (fun a r => { r with masterPort := a }),
    field "master_run_id" stringKind true (·.masterRunID) (fun a r => { r with masterRunID := a }),
    field "offset" int64Kind true (·.offset) (fun a r => { r with offset := a }),
    field "redis_stream" boolKind true (·.redisStream) (fun a r => { r with redisStream := a }),
    field "clear" boolKind true (·.clear) (fun a r => { r with clear := a })]

def PublishEvent.fields : List (FieldCodec PublishEvent) :=
  [field "channel" sliceKind false (·.channel) (fun a r => { r with channel := a }),
    field "message" sliceKind false (·.message) (fun a r => { r with message := a }),
    field "shard" boolKind true (·.shard) (fun a r => { r with shard := a })]

def ConsumerState.fields : List (FieldCodec ConsumerState) :=
  [field "name" stringKind false (·.name) (fun a r => { r with name := a }),
    field "seen_at" int64Kind false (·.seenAt) (fun a r => { r with seenAt := a }),
    field "active_at" int64Kind false (·.activeAt) (fun a r => { r with activeAt := a })]

def PendingState.fields : List (FieldCodec PendingState) :=
  [field "id" pairKind false (·.id) (fun a r => { r with id := a }),
    field "consumer" stringKind false (·.consumer) (fun a r => { r with consumer := a }),
    field "delivered_at" int64Kind false (·.deliveredAt) (fun a r => { r with deliveredAt := a }),
    field "deliveries" uint64Kind false (·.deliveries) (fun a r => { r with deliveries := a })]

def consumerKind : Kind ConsumerState :=
  structKind {} ConsumerState.fields

def pendingKind : Kind PendingState :=
  structKind {} PendingState.fields

def GroupDelta.fields : List (FieldCodec GroupDelta) :=
  [field "name" stringKind false (·.name) (fun a r => { r with name := a }),
    field "remove" boolKind true (·.remove) (fun a r => { r with remove := a }),
    field "set" boolKind true (·.set) (fun a r => { r with set := a }),
    field "last_delivered" pairKind true (·.lastDelivered)
      (fun a r => { r with lastDelivered := a }),
    field "entries_read" int64Kind true (·.entriesRead) (fun a r => { r with entriesRead := a }),
    field "consumers" (listKind consumerKind) true (·.consumers)
      (fun a r => { r with consumers := a }),
    field "del_consumers" (listKind stringKind) true (·.delConsumers)
      (fun a r => { r with delConsumers := a }),
    field "pending" (listKind pendingKind) true (·.pending) (fun a r => { r with pending := a }),
    field "del_pending" (listKind pairKind) true (·.delPending)
      (fun a r => { r with delPending := a })]

def groupDeltaKind : Kind GroupDelta :=
  structKind {} GroupDelta.fields

def StreamDelta.fields : List (FieldCodec StreamDelta) :=
  [field "create" boolKind true (·.create) (fun a r => { r with create := a }),
    field "append" bytesKind true (·.append) (fun a r => { r with append := a }),
    field "append_count" int64Kind true (·.appendCount) (fun a r => { r with appendCount := a }),
    field "remove_through" pairKind true (·.removeThrough)
      (fun a r => { r with removeThrough := a }),
    field "has_remove_through" boolKind true (·.hasRemoveThrough)
      (fun a r => { r with hasRemoveThrough := a }),
    field "delete" bytesKind true (·.delete) (fun a r => { r with delete := a }),
    field "last_id" pairKind false (·.lastID) (fun a r => { r with lastID := a }),
    field "max_deleted_id" pairKind false (·.maxDeletedID)
      (fun a r => { r with maxDeletedID := a }),
    field "entries_added" uint64Kind false (·.entriesAdded)
      (fun a r => { r with entriesAdded := a }),
    field "groups" bytesKind true (·.groups) (fun a r => { r with groups := a }),
    field "groups_set" boolKind true (·.groupsSet) (fun a r => { r with groupsSet := a }),
    field "group_ops" (listKind groupDeltaKind) true (·.groupOps)
      (fun a r => { r with groupOps := a })]

def replicationKind : Kind ReplicationCheckpoint :=
  structKind {} ReplicationCheckpoint.fields

def streamDeltaKind : Kind StreamDelta :=
  structKind {} StreamDelta.fields

def publishKind : Kind PublishEvent :=
  structKind {} PublishEvent.fields

def Record.fields : List (FieldCodec Record) :=
  [field "reset" boolKind true (·.reset) (fun a r => { r with reset := a }),
    field "key" sliceKind false (·.key) (fun a r => { r with key := a }),
    field "value" bytesKind true (·.value) (fun a r => { r with value := a }),
    field "expires_at_ms" int64Kind true (·.expiresAtMS) (fun a r => { r with expiresAtMS := a }),
    field "deleted" boolKind true (·.deleted) (fun a r => { r with deleted := a }),
    field "value_type" uint8Kind true (·.valueType) (fun a r => { r with valueType := a }),
    field "replication" (pointerKind replicationKind) true (·.replication)
      (fun a r => { r with replication := a }),
    field "stream" (pointerKind streamDeltaKind) true (·.stream)
      (fun a r => { r with stream := a }),
    field "publish" (pointerKind publishKind) true (·.publish)
      (fun a r => { r with publish := a })]

def recordKind : Kind Record :=
  structKind {} Record.fields

/-! ## Strings -/

def ReplicationCheckpoint.mapStrings (f : Bytes → Bytes) (r : ReplicationCheckpoint) :
    ReplicationCheckpoint :=
  { r with masterHost := f r.masterHost, masterRunID := f r.masterRunID }

def ConsumerState.mapStrings (f : Bytes → Bytes) (c : ConsumerState) : ConsumerState :=
  { c with name := f c.name }

def PendingState.mapStrings (f : Bytes → Bytes) (p : PendingState) : PendingState :=
  { p with consumer := f p.consumer }

def GroupDelta.mapStrings (f : Bytes → Bytes) (g : GroupDelta) : GroupDelta :=
  { g with
    name := f g.name
    consumers := g.consumers.map (ConsumerState.mapStrings f)
    delConsumers := g.delConsumers.map f
    pending := g.pending.map (PendingState.mapStrings f) }

def StreamDelta.mapStrings (f : Bytes → Bytes) (d : StreamDelta) : StreamDelta :=
  { d with groupOps := d.groupOps.map (GroupDelta.mapStrings f) }

/-- The record with `f` applied to every field that is a string in the source. -/
def Record.mapStrings (f : Bytes → Bytes) (r : Record) : Record :=
  { r with
    replication := r.replication.map (ReplicationCheckpoint.mapStrings f)
    stream := r.stream.map (StreamDelta.mapStrings f) }

def ReplicationCheckpoint.strings (r : ReplicationCheckpoint) : List Bytes :=
  [r.masterHost, r.masterRunID]

def GroupDelta.strings (g : GroupDelta) : List Bytes :=
  g.name :: g.consumers.map (·.name) ++ g.delConsumers ++ g.pending.map (·.consumer)

def StreamDelta.strings (d : StreamDelta) : List Bytes :=
  d.groupOps.flatMap GroupDelta.strings

def Record.strings (r : Record) : List Bytes :=
  (r.replication.elim [] ReplicationCheckpoint.strings) ++ (r.stream.elim [] StreamDelta.strings)

section Strings

variable {f : Bytes → Bytes}

theorem map_eq_self {α : Type} {g : α → α} {xs : List α} : xs.map g = xs ↔ ∀ x ∈ xs, g x = x := by
  simpa using map_inj_left (g := id)

theorem GroupDelta.mapStrings_eq_self {g : GroupDelta} :
    g.mapStrings f = g ↔ ∀ s ∈ g.strings, f s = s := by
  rcases g with ⟨name, remove, set, lastDelivered, entriesRead, consumers, delConsumers, pending,
    delPending⟩
  have hconsumer : ∀ c : ConsumerState, c.mapStrings f = c ↔ f c.name = c.name := by
    rintro ⟨name, seenAt, activeAt⟩
    simp [ConsumerState.mapStrings]
  have hpending : ∀ p : PendingState, p.mapStrings f = p ↔ f p.consumer = p.consumer := by
    rintro ⟨id, consumer, deliveredAt, deliveries⟩
    simp [PendingState.mapStrings]
  simp only [mapStrings, strings, GroupDelta.mk.injEq, map_eq_self, hconsumer, hpending, true_and,
    and_true, forall_mem_append, forall_mem_cons, forall_mem_map, cons_append,
    and_assoc]

theorem StreamDelta.mapStrings_eq_self {d : StreamDelta} :
    d.mapStrings f = d ↔ ∀ s ∈ d.strings, f s = s := by
  rcases d with ⟨create, append, appendCount, removeThrough, hasRemoveThrough, delete, lastID,
    maxDeletedID, entriesAdded, groups, groupsSet, groupOps⟩
  simp only [mapStrings, strings, StreamDelta.mk.injEq, map_eq_self, true_and,
    GroupDelta.mapStrings_eq_self, mem_flatMap, forall_exists_index, and_imp]
  exact ⟨fun h s g hg => h g hg s, fun h g hg s => h s g hg⟩

theorem Record.mapStrings_eq_self {r : Record} : r.mapStrings f = r ↔ ∀ s ∈ r.strings, f s = s := by
  have hreplication : ∀ c : ReplicationCheckpoint,
      c.mapStrings f = c ↔ ∀ s ∈ c.strings, f s = s := by
    rintro ⟨masterHost, masterPort, masterRunID, offset, redisStream, clear⟩
    simp [ReplicationCheckpoint.mapStrings, ReplicationCheckpoint.strings]
  rcases r with ⟨reset, key, value, expiresAtMS, deleted, valueType, replication, stream, publish⟩
  simp only [mapStrings, strings, Record.mk.injEq, true_and, and_true, forall_mem_append]
  refine and_congr ?_ ?_
  · cases replication with
    | none => simp
    | some c => simp only [Option.map_some, Option.some.injEq, hreplication, Option.elim_some]
  · cases stream with
    | none => simp
    | some d =>
      simp only [Option.map_some, Option.some.injEq, StreamDelta.mapStrings_eq_self,
        Option.elim_some]

end Strings

/-! ## Round trip -/

theorem lawful_replication : replicationKind.Lawful
    (ReplicationCheckpoint.mapStrings toValidUtf8) := by
  refine lawful_struct fun r => ?_
  refine readsFields_cons lawful_string ?_
  refine readsFields_cons lawful_int64 ?_
  refine readsFields_cons lawful_string ?_
  refine readsFields_cons lawful_int64 ?_
  refine readsFields_cons lawful_bool ?_
  refine readsFields_cons lawful_bool ?_
  exact readsFields_nil

theorem lawful_publish : publishKind.Lawful id := by
  refine lawful_struct fun r => ?_
  refine readsFields_written (read_slice _) ?_ Bool.false_ne_true
  refine readsFields_written (read_slice _) ?_ Bool.false_ne_true
  refine readsFields_cons lawful_bool ?_
  exact readsFields_nil

theorem lawful_consumer : consumerKind.Lawful (ConsumerState.mapStrings toValidUtf8) := by
  refine lawful_struct fun r => ?_
  refine readsFields_cons lawful_string ?_
  refine readsFields_cons lawful_int64 ?_
  refine readsFields_cons lawful_int64 ?_
  exact readsFields_nil

theorem lawful_pending : pendingKind.Lawful (PendingState.mapStrings toValidUtf8) := by
  refine lawful_struct fun r => ?_
  refine readsFields_cons lawful_pair ?_
  refine readsFields_cons lawful_string ?_
  refine readsFields_cons lawful_int64 ?_
  refine readsFields_cons lawful_uint64 ?_
  exact readsFields_nil

theorem lawful_groupDelta : groupDeltaKind.Lawful (GroupDelta.mapStrings toValidUtf8) := by
  refine lawful_struct fun r => ?_
  refine readsFields_cons lawful_string ?_
  refine readsFields_cons lawful_bool ?_
  refine readsFields_cons lawful_bool ?_
  refine readsFields_cons lawful_pair ?_
  refine readsFields_cons lawful_int64 ?_
  refine readsFields_cons (lawful_list lawful_consumer) ?_
  refine readsFields_cons (lawful_list lawful_string) ?_
  refine readsFields_cons (lawful_list lawful_pending) ?_
  refine readsFields_cons (lawful_list_id lawful_pair) ?_
  exact readsFields_nil

theorem lawful_streamDelta : streamDeltaKind.Lawful (StreamDelta.mapStrings toValidUtf8) := by
  refine lawful_struct fun r => ?_
  refine readsFields_cons lawful_bool ?_
  refine readsFields_cons lawful_bytes ?_
  refine readsFields_cons lawful_int64 ?_
  refine readsFields_cons lawful_pair ?_
  refine readsFields_cons lawful_bool ?_
  refine readsFields_cons lawful_bytes ?_
  refine readsFields_cons lawful_pair ?_
  refine readsFields_cons lawful_pair ?_
  refine readsFields_cons lawful_uint64 ?_
  refine readsFields_cons lawful_bytes ?_
  refine readsFields_cons lawful_bool ?_
  refine readsFields_cons (lawful_list lawful_groupDelta) ?_
  exact readsFields_nil

theorem lawful_record : recordKind.Lawful (Record.mapStrings toValidUtf8) := by
  refine lawful_struct fun r => ?_
  refine readsFields_cons lawful_bool ?_
  refine readsFields_written (read_slice _) ?_ Bool.false_ne_true
  refine readsFields_cons lawful_bytes ?_
  refine readsFields_cons lawful_int64 ?_
  refine readsFields_cons lawful_bool ?_
  refine readsFields_cons lawful_uint8 ?_
  refine readsFields_cons (lawful_pointer lawful_replication (repair_struct_ne_null _ _)) ?_
  refine readsFields_cons (lawful_pointer lawful_streamDelta (repair_struct_ne_null _ _)) ?_
  refine readsFields_cons (lawful_pointer_id lawful_publish (repair_struct_ne_null _ _)) ?_
  exact readsFields_nil

end Persistence
end SnugKV
