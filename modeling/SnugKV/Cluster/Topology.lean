import SnugKV.Codec.Scalar
import SnugKV.Lib.Hex
import SnugKV.Lib.Rank
import Mathlib.Data.Fintype.Pi
import Mathlib.Data.List.FinRange

/-!
# Cluster topology — slot tables and the commands that change them

Every node keeps its own copy of the cluster's tables:

* `owners`    — which node serves a slot (the empty address: none);
* `migrating` — where the node is moving a slot to;
* `importing` — where it is taking a slot from.

This module has the tables, the addresses and node ids in them, and the two control commands
that other nodes send: `CLUSTER SETSLOT` and `CLUSTER FAILOVER-OWNER`. SHA-1 is a parameter.
-/

namespace SnugKV
namespace Cluster

open Lib Lib.Hex Codecs

/-! ## Addresses -/

/-- A node's `host:port` text. -/
abbrev Addr := Bytes

def colon : UInt8 := ':'.toUInt8
def openBracket : UInt8 := '['.toUInt8
def closeBracket : UInt8 := ']'.toUInt8

/-- `net.SplitHostPort` -/
def splitHostPort (s : Bytes) : Option (Bytes × Bytes) :=
  match s.reverse.findIdx? (· == colon) with
  | none => none
  | some j =>
    let i := s.length - 1 - j
    if s.head? = some openBracket then
      match s.findIdx? (· == closeBracket) with
      | none => none
      | some k =>
        if k + 1 ≠ i then none
        else if (s.drop 1).contains openBracket then none
        else if (s.drop (k + 1)).contains closeBracket then none
        else some ((s.take k).drop 1, s.drop (i + 1))
    else if (s.take i).contains colon then none
    else if s.contains openBracket || s.contains closeBracket then none
    else some (s.take i, s.drop (i + 1))

/-- `net.JoinHostPort` -/
def joinHostPort (host port : Bytes) : Bytes :=
  if host.contains colon then openBracket :: host ++ closeBracket :: colon :: port
  else host ++ colon :: port

def validPort (text : Bytes) : Bool :=
  match parseInt text with
  | none => false
  | some port => decide (0 < port ∧ port ≤ 65535)

/-- An address the node can open a control connection to. -/
def dialable (addr : Addr) : Bool :=
  match splitHostPort addr with
  | none => false
  | some (_, port) => validPort port

def validateClusterOwnerAddress (addr : Addr) : Bool :=
  match splitHostPort addr with
  | none => false
  | some (host, port) => host != [] && port != [] && validPort port

/-! ## Slots -/

/-- `clusterSlotCount` -/
def slotCount : Nat := 16384

abbrev Slot := Fin slotCount

/-- `[clusterSlotCount]string` -/
abbrev SlotTable := Slot → Addr

/-- The part of the key that decides its slot: between the first `{` and the next `}`. -/
def clusterHashKey (key : Bytes) : Bytes :=
  match key.findIdx? (· == '{'.toUInt8) with
  | none => key
  | some i =>
    let rest := key.drop (i + 1)
    match rest.findIdx? (· == '}'.toUInt8) with
    | none => key
    | some 0 => key
    | some n => rest.take n

def crcShift (crc : UInt16) : UInt16 :=
  if crc &&& 0x8000 ≠ 0 then (crc <<< 1) ^^^ 0x1021 else crc <<< 1

def clusterCRC16 (data : Bytes) : UInt16 :=
  data.foldl (fun (crc : UInt16) b => (List.range 8).foldl (fun c _ => crcShift c)
    (crc ^^^ (b.toUInt16 <<< (8 : UInt16)))) 0

def clusterKeySlot (key : Bytes) : Slot :=
  ⟨(clusterCRC16 (clusterHashKey key)).toNat % slotCount, Nat.mod_lt _ (by decide)⟩

/-! ## The tables -/

structure Topology where
  enabled : Bool
  nodeAddr : Addr
  /-- Counts the accepted changes of this copy. -/
  epoch : Nat
  knownNodes : List Addr
  owners : SlotTable
  migrating : SlotTable
  importing : SlotTable

/-- What a control operation answers with instead of `+OK`. -/
inductive ControlError where
  /-- `ERR This instance has cluster support disabled` -/
  | disabled
  /-- `ERR another cluster rebalance operation is already in progress` -/
  | busy
  /-- `ERR cluster topology persistence failed` -/
  | unsaved
  /-- `ERR I don't know about node specified` -/
  | unknownNode
  /-- `ERR I'm not the owner of hash slot` -/
  | notOwner
  /-- `ERR I'm already the owner of hash slot` -/
  | alreadyOwner
  /-- `ERR Can't assign hashslot to a different node while I still hold keys` -/
  | holdsKeys
  /-- `ERR invalid cluster failover owner replacement` -/
  | badReplacement
  /-- `ERR invalid cluster failover owner address` -/
  | badAddress
  /-- `ERR cluster failover ownership refused while slots are migrating or importing` -/
  | transitions
  /-- `ERR cluster failover ownership fence rejected stale coordinator` -/
  | staleCoordinator
  /-- `ERR cluster failover old owner does not own any slots` -/
  | noSlots
  /-- `ERR cluster failover ownership is ambiguous across multiple shard members` -/
  | ambiguous
  /-- `ERR cluster failover requires cluster_node_addr to match failover_advertise_addr` -/
  | addrMismatch
  /-- `ERR invalid rebalance target address` -/
  | undialable
  /-- The connection failed, or closed before the answer. -/
  | noAnswer
  /-- `ERR REBALANCE RECOVER RESUME must run on the slot owner` -/
  | notSlotOwner
  /-- `ERR REBALANCE RECOVER RESUME requires a locally migrating slot` -/
  | notMigrating
  /-- `ERR REBALANCE APPLY ONCE must run on source node` -/
  | wrongSource
  /-- `ERR DUMP object type is not supported yet` -/
  | undumpable
  /-- `ERR Target instance replied with error` -/
  | targetRefused
  deriving DecidableEq, Repr

/-- `sort.Strings` over the keys of a Go map without the empty string. -/
def sortedClusterKnownNodes (nodes : List Addr) : List Addr :=
  ((nodes.filter (· ≠ [])).dedup).insertionSort (· ≤ ·)

def clusterOwnersFromOwners (owners : SlotTable) : List Addr :=
  sortedClusterKnownNodes ((List.finRange slotCount).map owners)

def clusterKnownNodesFromState (t : Topology) : List Addr :=
  let sorted := sortedClusterKnownNodes t.knownNodes
  if sorted ≠ [] then sorted
  else sortedClusterKnownNodes (t.nodeAddr :: (List.finRange slotCount).map t.owners)

/-- Some slot is on its way to or from another node. -/
def Topology.Transitioning (t : Topology) : Prop :=
  ∃ slot, t.migrating slot ≠ [] ∨ t.importing slot ≠ []

instance (t : Topology) : Decidable t.Transitioning := inferInstanceAs (Decidable (∃ _, _))

variable {a old new : Addr} {owners : SlotTable}

theorem mem_sortedClusterKnownNodes {nodes : List Addr} :
    a ∈ sortedClusterKnownNodes nodes ↔ a ∈ nodes ∧ a ≠ [] := by
  simp [sortedClusterKnownNodes]

theorem nodup_sortedClusterKnownNodes (nodes : List Addr) :
    (sortedClusterKnownNodes nodes).Nodup :=
  (List.perm_insertionSort _ _).nodup_iff.2 (List.nodup_dedup _)

theorem mem_clusterOwnersFromOwners :
    a ∈ clusterOwnersFromOwners owners ↔ (∃ slot, owners slot = a) ∧ a ≠ [] := by
  simp [clusterOwnersFromOwners, mem_sortedClusterKnownNodes]

variable {t u : Topology} {sha1 : Bytes → Bytes} {expected : Bytes} {saved : Bool}

/-! ## Node ids and the ownership digest -/

section Digests

variable (sha1 : Bytes → Bytes)

/-- `hex.EncodeToString` -/
def hexText (data : Bytes) : Bytes :=
  data.flatMap fun b => [lowerDigit (b >>> (4 : UInt8)), lowerDigit (b &&& (15 : UInt8))]

def clusterNodeID (addr : Addr) : Bytes :=
  hexText (sha1 addr)

/-- The line of one slot in the digest: `slot=owner`. -/
def ownershipLine (slot : Slot) (owner : Addr) : Bytes :=
  formatUint slot ++ '='.toUInt8 :: owner ++ ['\n'.toUInt8]

def ownershipText (owners : SlotTable) : Bytes :=
  (List.finRange slotCount).flatMap fun slot => ownershipLine slot (owners slot)

/-- The fence of a control command: a digest of the owners alone. -/
def clusterOwnershipDigest (t : Topology) : Bytes :=
  hexText (sha1 (ownershipText t.owners))

def clusterNodeAddressByID (t : Topology) (id : Bytes) : Option Addr :=
  match (clusterKnownNodesFromState t).find? (fun a => clusterNodeID sha1 a == id) with
  | some a => some a
  | none => if t.nodeAddr ≠ [] ∧ clusterNodeID sha1 t.nodeAddr = id then some t.nodeAddr else none

end Digests

/-! ## Accepted changes -/

/-- The parts of the tables that make a change worth an epoch and a write. -/
def Topology.SameAs (t u : Topology) : Prop :=
  t.enabled = u.enabled ∧ t.nodeAddr = u.nodeAddr ∧
    sortedClusterKnownNodes t.knownNodes = sortedClusterKnownNodes u.knownNodes ∧
    t.owners = u.owners ∧ t.migrating = u.migrating ∧ t.importing = u.importing

instance (t u : Topology) : Decidable (t.SameAs u) :=
  inferInstanceAs (Decidable (_ ∧ _ ∧ _ ∧ _ ∧ _ ∧ _))

/-- `mutateClusterTopologyLocked`: a change is kept only once the sidecar has it. -/
def mutateClusterTopology (saved : Bool) (mutator : Topology → Topology) (t : Topology) :
    Except ControlError Topology :=
  if (mutator t).SameAs t then .ok (mutator t)
  else if saved then .ok { mutator t with epoch := t.epoch + 1 }
  else .error .unsaved

theorem mutateClusterTopology_ok {f : Topology → Topology}
    (h : mutateClusterTopology saved f t = .ok u) : ∃ n, u = { f t with epoch := n } := by
  unfold mutateClusterTopology at h
  split at h
  · cases h
    exact ⟨(f t).epoch, rfl⟩
  · split at h
    · cases h
      exact ⟨t.epoch + 1, rfl⟩
    · cases h

theorem mutateClusterTopology_saved (f : Topology → Topology) (t : Topology) :
    ∃ n, mutateClusterTopology true f t = .ok { f t with epoch := n } := by
  unfold mutateClusterTopology
  split
  · exact ⟨(f t).epoch, rfl⟩
  · exact ⟨t.epoch + 1, rfl⟩

/-! ## `CLUSTER FAILOVER-OWNER` -/

/-- Every slot of `old` goes to `new`. -/
def reassign (old new : Addr) (owners : SlotTable) : SlotTable :=
  fun slot => if owners slot = old then new else owners slot

def replaceClusterOwnerMutator (old new : Addr) (t : Topology) : Topology :=
  { t with
    knownNodes := t.knownNodes.insert new
    owners := reassign old new t.owners }

/-- `replaceClusterOwnerFenced`; the empty fence is no fence. -/
def replaceClusterOwnerFenced (sha1 : Bytes → Bytes) (saved : Bool) (old new : Addr)
    (expected : Bytes) (t : Topology) : Except ControlError Topology :=
  if old = [] ∨ new = [] ∨ old = new then .error .badReplacement
  else if !validateClusterOwnerAddress old then .error .badAddress
  else if !validateClusterOwnerAddress new then .error .badAddress
  else if !t.enabled then .error .disabled
  else if t.Transitioning then .error .transitions
  else if expected ≠ [] ∧ clusterOwnershipDigest sha1 t ≠ expected then .error .staleCoordinator
  else if ∃ slot, t.owners slot = old then
    mutateClusterTopology saved (replaceClusterOwnerMutator old new) t
  else if ∃ slot, t.owners slot = new then .ok t
  else .error .noSlots

/-- What the receiver of an ownership change has to find in its own tables. -/
structure TakesOwner (sha1 : Bytes → Bytes) (old new : Addr) (expected : Bytes)
    (t : Topology) : Prop where
  oldValid : validateClusterOwnerAddress old = true
  newValid : validateClusterOwnerAddress new = true
  ne : old ≠ new
  enabled : t.enabled = true
  settled : ¬ t.Transitioning
  fence : expected = [] ∨ clusterOwnershipDigest sha1 t = expected
  owns : (∃ slot, t.owners slot = old) ∨ ∃ slot, t.owners slot = new

theorem ne_nil_of_valid (h : validateClusterOwnerAddress a = true) : a ≠ [] := by
  rintro rfl
  cases h

theorem reassign_of_not_owns
    (h : ¬ ∃ slot, owners slot = old) : reassign old new owners = owners :=
  funext fun slot => if_neg fun hs => h ⟨slot, hs⟩

theorem reassign_reassign (owners : SlotTable) (hne : old ≠ new) :
    reassign old new (reassign old new owners) = reassign old new owners := by
  refine reassign_of_not_owns ?_
  rintro ⟨slot, hs⟩
  unfold reassign at hs
  split at hs
  · exact hne hs.symm
  · exact absurd hs ‹_›

theorem replaceClusterOwnerFenced_ok
    (h : replaceClusterOwnerFenced sha1 saved old new expected t = .ok u) :
    TakesOwner sha1 old new expected t ∧ u.owners = reassign old new t.owners := by
  unfold replaceClusterOwnerFenced at h
  split_ifs at h with h1 h2 h3 h4 h5 h6 h7 h8
  · push Not at h1
    simp only [Bool.not_eq_true, Bool.not_eq_false'] at h2 h3 h4
    refine ⟨⟨h2, h3, h1.2.2, h4, h5, by tauto, .inl h7⟩, ?_⟩
    obtain ⟨n, rfl⟩ := mutateClusterTopology_ok h
    rfl
  · -- nothing is left to move: the change was applied before
    cases h
    push Not at h1
    simp only [Bool.not_eq_true, Bool.not_eq_false'] at h2 h3 h4
    exact ⟨⟨h2, h3, h1.2.2, h4, h5, by tauto, .inr h8⟩, (reassign_of_not_owns h7).symm⟩

theorem replaceClusterOwnerFenced_of_takes
    (h : TakesOwner sha1 old new expected t) :
    ∃ u, replaceClusterOwnerFenced sha1 true old new expected t = .ok u := by
  have h1 : ¬ (old = [] ∨ new = [] ∨ old = new) := by
    have hold := ne_nil_of_valid h.oldValid
    have hnew := ne_nil_of_valid h.newValid
    have hne := h.ne
    tauto
  have h6 : ¬ (expected ≠ [] ∧ clusterOwnershipDigest sha1 t ≠ expected) := by
    have hfence := h.fence
    tauto
  unfold replaceClusterOwnerFenced
  rw [if_neg h1, if_neg (by simp [h.oldValid]), if_neg (by simp [h.newValid]),
    if_neg (by simp [h.enabled]), if_neg h.settled, if_neg h6]
  by_cases hold : ∃ slot, t.owners slot = old
  · rw [if_pos hold]
    obtain ⟨n, hn⟩ := mutateClusterTopology_saved (replaceClusterOwnerMutator old new) t
    exact ⟨_, hn⟩
  · rw [if_neg hold, if_pos (h.owns.resolve_left hold)]
    exact ⟨t, rfl⟩

/-! ## `CLUSTER SETSLOT` -/

/-- The action of a `SETSLOT`; nodes are named by their id. -/
inductive SlotAction where
  | stable
  | migrating (id : Bytes)
  | importing (id : Bytes)
  | node (id : Bytes)
  deriving DecidableEq, Repr

def SlotTable.put (table : SlotTable) (slot : Slot) (a : Addr) : SlotTable :=
  Function.update table slot a

/-- `executeClusterSetSlot`; `hasKeys` is `clusterSlotHasKeys` on the receiver's store. -/
def executeClusterSetSlot (sha1 : Bytes → Bytes) (saved hasKeys : Bool) (slot : Slot)
    (action : SlotAction) (t : Topology) : Except ControlError Topology :=
  if !t.enabled then .error .disabled
  else
    match action with
    | .stable =>
      mutateClusterTopology saved (fun u =>
        { u with
          migrating := SlotTable.put u.migrating slot []
          importing := SlotTable.put u.importing slot [] }) t
    | .migrating id =>
      match clusterNodeAddressByID sha1 t id with
      | none => .error .unknownNode
      | some target =>
        if t.owners slot ≠ t.nodeAddr then .error .notOwner
        else
          mutateClusterTopology saved (fun u =>
            { u with
              migrating := SlotTable.put u.migrating slot target
              importing := SlotTable.put u.importing slot [] }) t
    | .importing id =>
      match clusterNodeAddressByID sha1 t id with
      | none => .error .unknownNode
      | some source =>
        if t.owners slot = t.nodeAddr then .error .alreadyOwner
        else
          mutateClusterTopology saved (fun u =>
            { u with
              migrating := SlotTable.put u.migrating slot []
              importing := SlotTable.put u.importing slot source }) t
    | .node id =>
      match clusterNodeAddressByID sha1 t id with
      | none => .error .unknownNode
      | some owner =>
        if t.owners slot = t.nodeAddr ∧ owner ≠ t.nodeAddr ∧ hasKeys = true then
          .error .holdsKeys
        else
          mutateClusterTopology saved (fun u =>
            { u with
              owners := SlotTable.put u.owners slot owner
              migrating := SlotTable.put u.migrating slot []
              importing := SlotTable.put u.importing slot [] }) t

@[simp] theorem SlotTable.put_same (table : SlotTable) (slot : Slot) (a : Addr) :
    SlotTable.put table slot a slot = a := by
  simp [SlotTable.put]

end Cluster
end SnugKV
