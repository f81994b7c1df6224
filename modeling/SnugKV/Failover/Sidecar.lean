import SnugKV.Failover.Election
import SnugKV.Failover.Membership
import SnugKV.Lib.Json.Fields

/-!
# Sidecar — the membership of a node across a restart

Every operation that changes the membership of a node writes the whole state to a JSON file; a
node that starts reads the file and checks it again, by rules of its own.  The operation changes the
state under a mutex; the write takes its snapshot and renames the file after the mutex is released,
and takes the change back if it fails.

* `persistFailoverMembershipState`, `loadFailoverMembershipState` — the file and its loader;
* `load_persist` — what the loader makes of a file that was written;
* `Server.step` — operations and writes as separate events;
* `Careful` — the events after which the file restores the node: no operation while a write is under
  way; a single node that is left alone is refused, and so is a consent to retire that a later
  commit has overtaken.
-/

namespace SnugKV
namespace Failover
namespace Membership

open Lib Lib.Json Cluster List Node

/-! ## The file -/

/-- `failoverMembershipPersistenceState` -/
structure Sidecar where
  version : Int64 := 0
  groupID : Bytes := []
  configEpoch : UInt64 := 0
  peers : List Bytes := []
  quorum : Int64 := 0
  jointActive : Bool := false
  pendingEpoch : UInt64 := 0
  pendingPeers : List Bytes := []
  pendingQuorum : Int64 := 0
  commitPending : Bool := false
  commitOldEpoch : UInt64 := 0
  commitEpoch : UInt64 := 0
  commitMembers : List Bytes := []
  commitQuorum : Int64 := 0
  commitTargets : List Bytes := []
  retired : Bool := false
  retiredAtEpoch : UInt64 := 0
  retirePending : Bool := false
  retirePendingEpoch : UInt64 := 0
  commitRetireTargets : List Bytes := []
  deriving DecidableEq, Repr

def failoverMembershipPersistenceVersion : Int64 := 1

def textsKind : Kind (List Bytes) := listKind stringKind

def Sidecar.fields : List (FieldCodec Sidecar) :=
  [field "version" int64Kind false (·.version) (fun a s => { s with version := a }),
    field "group_id" stringKind false (·.groupID) (fun a s => { s with groupID := a }),
    field "config_epoch" uint64Kind false (·.configEpoch) (fun a s => { s with configEpoch := a }),
    field "peers" (nilListKind stringKind) false (·.peers) (fun a s => { s with peers := a }),
    field "quorum" int64Kind false (·.quorum) (fun a s => { s with quorum := a }),
    field "joint_active" boolKind false (·.jointActive) (fun a s => { s with jointActive := a }),
    field "pending_epoch" uint64Kind true (·.pendingEpoch)
      (fun a s => { s with pendingEpoch := a }),
    field "pending_peers" textsKind true (·.pendingPeers) (fun a s => { s with pendingPeers := a }),
    field "pending_quorum" int64Kind true (·.pendingQuorum)
      (fun a s => { s with pendingQuorum := a }),
    field "commit_pending" boolKind true (·.commitPending)
      (fun a s => { s with commitPending := a }),
    field "commit_old_epoch" uint64Kind true (·.commitOldEpoch)
      (fun a s => { s with commitOldEpoch := a }),
    field "commit_epoch" uint64Kind true (·.commitEpoch) (fun a s => { s with commitEpoch := a }),
    field "commit_members" textsKind true (·.commitMembers)
      (fun a s => { s with commitMembers := a }),
    field "commit_quorum" int64Kind true (·.commitQuorum) (fun a s => { s with commitQuorum := a }),
    field "commit_targets" textsKind true (·.commitTargets)
      (fun a s => { s with commitTargets := a }),
    field "retired" boolKind true (·.retired) (fun a s => { s with retired := a }),
    field "retired_at_epoch" uint64Kind true (·.retiredAtEpoch)
      (fun a s => { s with retiredAtEpoch := a }),
    field "retire_pending" boolKind true (·.retirePending)
      (fun a s => { s with retirePending := a }),
    field "retire_pending_epoch" uint64Kind true (·.retirePendingEpoch)
      (fun a s => { s with retirePendingEpoch := a }),
    field "commit_retire_targets" textsKind true (·.commitRetireTargets)
      (fun a s => { s with commitRetireTargets := a })]

def sidecarKind : Kind Sidecar := structKind {} Sidecar.fields

/-- The state that is written; what is not pending has zero fields. -/
def Node.sidecar (n : Node) : Sidecar :=
  let p := n.joint.getD ⟨0, [], 0⟩
  let r := n.commit.getD ⟨0, 0, [], 0, [], [], 0⟩
  { version := failoverMembershipPersistenceVersion
    groupID := n.group, configEpoch := .ofNat n.epoch, peers := n.peers, quorum := .ofNat n.quorum
    jointActive := n.joint.isSome
    pendingEpoch := .ofNat p.epoch, pendingPeers := p.peers, pendingQuorum := .ofNat p.quorum
    commitPending := n.commit.isSome
    commitOldEpoch := .ofNat r.oldEpoch, commitEpoch := .ofNat r.epoch, commitMembers := r.members
    commitQuorum := .ofNat r.quorum, commitTargets := r.targets
    retired := n.retired.isSome, retiredAtEpoch := .ofNat (n.retired.getD 0)
    retirePending := n.retirePending.isSome
    retirePendingEpoch := .ofNat (n.retirePending.getD 0)
    commitRetireTargets := r.retireTargets }

def persistFailoverMembershipState (n : Node) : Bytes :=
  render (sidecarKind.write n.sidecar)

/-! ## The loader -/

inductive LoadError where
  | malformed
  /-- `unsupported failover membership state version` -/
  | version
  /-- `invalid persisted failover membership transition` -/
  | transition
  /-- `invalid persisted failover membership commit recovery` -/
  | commitRecovery
  /-- `invalid persisted failover retirement prepare` -/
  | retirement
  deriving DecidableEq, Repr

/-- A node with the membership of the file; its role is not in there. -/
def Sidecar.node (s : Sidecar) (n : Node) : Node :=
  { n with
    group := s.groupID, epoch := s.configEpoch.toNat, peers := s.peers
    quorum := s.quorum.toNatClampNeg
    joint := if s.jointActive then
      some ⟨s.pendingEpoch.toNat, s.pendingPeers, s.pendingQuorum.toNatClampNeg⟩ else none
    commit := if s.commitPending then
      some ⟨s.commitOldEpoch.toNat, s.commitEpoch.toNat, s.commitMembers,
        s.commitQuorum.toNatClampNeg, s.commitTargets, s.commitRetireTargets, 0⟩ else none
    retired := if s.retired then some s.retiredAtEpoch.toNat else none
    retirePending := if s.retirePending then some s.retirePendingEpoch.toNat else none }

def Sidecar.mapTexts (f : Bytes → Bytes) (s : Sidecar) : Sidecar :=
  { s with
    groupID := f s.groupID, peers := s.peers.map f, pendingPeers := s.pendingPeers.map f
    commitMembers := s.commitMembers.map f, commitTargets := s.commitTargets.map f
    commitRetireTargets := s.commitRetireTargets.map f }

/-- What changes the membership of a node, with the numbers of the types the code has. -/
inductive Operation where
  | prepare (group : Bytes) (currentEpoch newEpoch : UInt64) (members : List Addr) (quorum : Int64)
  | commit (group : Bytes) (epoch : UInt64)
  | abort (group : Bytes) (epoch : UInt64)
  | retirePrepare (group : Bytes) (currentEpoch retireAtEpoch : UInt64)
  | retire (group : Bytes) (currentEpoch retireAtEpoch : UInt64)
  /-- `armFailoverMembershipCommitRecovery` -/
  | arm (oldEpoch newEpoch : UInt64) (members : List Addr) (quorum : Int64)
      (targets retireTargets : List Addr)
  /-- `clearFailoverMembershipCommitRecovery` -/
  | clear
  deriving DecidableEq, Repr

def Operation.message : Operation → Option Message
  | .prepare group currentEpoch newEpoch members quorum =>
    some (.prepare group currentEpoch.toNat newEpoch.toNat members quorum.toNatClampNeg)
  | .commit group epoch => some (.commit group epoch.toNat)
  | .abort group epoch => some (.abort group epoch.toNat)
  | .retirePrepare group currentEpoch retireAtEpoch =>
    some (.retirePrepare group currentEpoch.toNat retireAtEpoch.toNat)
  | .retire group currentEpoch retireAtEpoch =>
    some (.retire group currentEpoch.toNat retireAtEpoch.toNat)
  | _ => none

/-- What `coordinateFailoverMembershipChange` has checked before it arms the recovery: it has
prepared itself for the epoch and the members. -/
def Coordinated (self : Addr) (oldEpoch newEpoch : UInt64) (members : List Addr)
    (quorum : Int64) : Prop :=
  newEpoch = oldEpoch + 1 ∧ oldEpoch < newEpoch ∧
    (do let peers ← deriveFailoverPeersForMember members self
        validateFailoverPeerSet peers quorum.toNatClampNeg) = .ok ()

instance (self : Addr) (oldEpoch newEpoch : UInt64) (members : List Addr) (quorum : Int64) :
    Decidable (Coordinated self oldEpoch newEpoch members quorum) :=
  inferInstanceAs (Decidable (_ ∧ _ ∧ _))

/-- The node after an operation that is accepted. -/
def Node.operate (self : Addr) (n : Node) (op : Operation) : Option Node :=
  match op, op.message with
  | _, some m => if (n.serve self m).1 then some (n.serve self m).2 else none
  | .arm oldEpoch newEpoch members quorum targets retireTargets, none =>
    if Coordinated self oldEpoch newEpoch members quorum then
      some { n with commit := some ⟨oldEpoch.toNat, newEpoch.toNat, members,
        quorum.toNatClampNeg, targets, retireTargets, 0⟩ }
    else none
  | _, none => some { n with commit := none }

/-- Whether an accepted operation writes the file: the recovery always does, a message when it has
changed the node. -/
def Operation.persists (op : Operation) (n n' : Node) : Bool :=
  op.message.isNone || n' ≠ n

/-- What an operation takes back when its write fails: the fields it has changed are as before. -/
def Operation.rollback (before n : Node) : Operation → Node
  | .prepare .. | .abort .. => { n with joint := before.joint }
  | .commit .. =>
    { n with
      epoch := before.epoch, peers := before.peers, quorum := before.quorum
      joint := before.joint, retirePending := before.retirePending }
  | .retirePrepare .. => { n with retirePending := before.retirePending }
  | .retire .. => { n with retired := before.retired, retirePending := before.retirePending }
  | .arm .. | .clear => { n with commit := before.commit }

/-- A write of the file that is under way. -/
structure SidecarWrite where
  op : Operation
  before : Node
  /-- The snapshot, once it is taken. -/
  payload : Option Bytes
  deriving DecidableEq

/-- A node and its file. -/
structure Server where
  node : Node
  file : Option Bytes
  writes : List SidecarWrite := []
  deriving DecidableEq

inductive SidecarEvent where
  /-- The operation is accepted, up to the release of the mutex. -/
  | start (op : Operation)
  /-- `persistFailoverMembershipState` reads the state of the node. -/
  | snapshot (i : Nat)
  | finish (i : Nat) (outcome : Outcome)
  deriving DecidableEq, Repr

def Server.step (self : Addr) (s : Server) : SidecarEvent → Option Server
  | .start op =>
    (s.node.operate self op).map fun n =>
      if op.persists s.node n then
        { s with node := n, writes := s.writes ++ [⟨op, s.node, none⟩] }
      else s
  | .snapshot i =>
    match s.writes[i]? with
    | some ⟨op, before, none⟩ => some { s with
        writes := s.writes.set i ⟨op, before, some (persistFailoverMembershipState s.node)⟩ }
    | _ => none
  | .finish i outcome =>
    match s.writes[i]? with
    | none => none
    | some w =>
      let s' := { s with writes := s.writes.eraseIdx i }
      let undone := w.op.rollback w.before s.node
      match outcome, w.payload with
      | .failed, _ => some { s' with node := undone }
      | .written, some data => some { s' with file := some data }
      | .unconfirmed, some data => some { s' with node := undone, file := some data }
      | _, none => none

/-! ## The condition -/

/-- The texts of the state are UTF-8. -/
@[mk_iff]
structure Node.Valid (n : Node) : Prop where
  group : validUtf8 n.group = true
  peers : ∀ t ∈ n.peers, validUtf8 t = true
  joint : ∀ p ∈ n.joint, ∀ t ∈ p.peers, validUtf8 t = true
  commit : ∀ r ∈ n.commit, ∀ t ∈ r.members ++ r.targets ++ r.retireTargets, validUtf8 t = true

instance (n : Node) : Decidable n.Valid :=
  decidable_of_iff' _ (Node.valid_iff n)

/-- The texts are valid UTF-8, a prepare names another node, and a commit does not go past the
epoch of another retirement that the node has consented to. -/
def Operation.Careful (n : Node) (self : Addr) (op : Operation) : Prop :=
  n.Valid ∧
    match op with
    | .prepare _ _ _ members _ =>
      (∃ m ∈ members, m ≠ self) ∧ ∀ t ∈ members, validUtf8 t = true
    | .commit _ epoch => ∀ e ∈ n.retirePending, e ≤ epoch.toNat → e = epoch.toNat
    | .arm _ _ members _ targets retireTargets =>
      ∀ t ∈ members ++ targets ++ retireTargets, validUtf8 t = true
    | _ => True

instance (n : Node) (self : Addr) (op : Operation) : Decidable (op.Careful n self) := by
  unfold Operation.Careful
  cases op <;> infer_instance

/-- A careful operation starts when no write is under way, and no write fails behind its rename. -/
def Careful (self : Addr) (s : Server) : SidecarEvent → Prop
  | .start op => s.writes = [] ∧ op.Careful s.node self
  | .snapshot _ => True
  | .finish _ outcome => outcome ≠ .unconfirmed

instance decidableCareful (self : Addr) (s : Server) : ∀ e, Decidable (Careful self s e)
  | .start op => inferInstanceAs (Decidable (s.writes = [] ∧ op.Careful s.node self))
  | .snapshot _ => isTrue trivial
  | .finish _ outcome => inferInstanceAs (Decidable (outcome ≠ .unconfirmed))

/-! ## The invariant -/

/-- Numbers of the types of the file, and what the loader asks for. -/
structure Node.Loads (n : Node) : Prop where
  epoch : n.epoch < 2 ^ 64
  quorum : n.quorum < 2 ^ 63
  joint : ∀ p ∈ n.joint, n.epoch < p.epoch ∧ p.epoch < 2 ^ 64 ∧ p.peers ≠ [] ∧ 0 < p.quorum ∧
    p.quorum < 2 ^ 63
  commit : ∀ r ∈ n.commit, r.oldEpoch < r.epoch ∧ r.epoch < 2 ^ 64 ∧ r.members ≠ [] ∧
    0 < r.quorum ∧ r.quorum < 2 ^ 63 ∧ r.attempt = 0
  retired : ∀ e ∈ n.retired, e < 2 ^ 64
  retirePending : ∀ e ∈ n.retirePending, n.epoch < e ∧ e < 2 ^ 64

section

variable {self : Addr} {n n' n₀ : Node} {s s' : Server} {op : Operation} {members : List Addr}
  {quorum : Int64}

attribute [ext] Node

theorem Node.Loads.node (h : n.Loads) (hmaster : n₀.master = n.master) : n.sidecar.node n₀ = n := by
  have hjoint : (n.sidecar.node n₀).joint = n.joint := by
    cases hp : n.joint with
    | none => simp [Sidecar.node, Node.sidecar, hp]
    | some p =>
      obtain ⟨-, hmax, -, -, hquorum⟩ := h.joint p hp
      simp [Sidecar.node, Node.sidecar, hp, UInt64.toNat_ofNat_of_lt' hmax,
        Int64.toNatClampNeg_ofNat_of_lt hquorum]
  have hcommit : (n.sidecar.node n₀).commit = n.commit := by
    cases hr : n.commit with
    | none => simp [Sidecar.node, Node.sidecar, hr]
    | some r =>
      obtain ⟨hlt, hmax, -, -, hquorum, hattempt⟩ := h.commit r hr
      simp [Sidecar.node, Node.sidecar, hr, UInt64.toNat_ofNat_of_lt' hmax,
        UInt64.toNat_ofNat_of_lt' (lt_trans hlt hmax), Int64.toNatClampNeg_ofNat_of_lt hquorum,
        ← hattempt]
  have hretired : (n.sidecar.node n₀).retired = n.retired := by
    cases he : n.retired with
    | none => simp [Sidecar.node, Node.sidecar, he]
    | some e => simp [Sidecar.node, Node.sidecar, he, UInt64.toNat_ofNat_of_lt' (h.retired e he)]
  have hpending : (n.sidecar.node n₀).retirePending = n.retirePending := by
    cases he : n.retirePending with
    | none => simp [Sidecar.node, Node.sidecar, he]
    | some e =>
      simp [Sidecar.node, Node.sidecar, he, UInt64.toNat_ofNat_of_lt' (h.retirePending e he).2]
  exact Node.ext rfl (UInt64.toNat_ofNat_of_lt' h.epoch) rfl
    (Int64.toNatClampNeg_ofNat_of_lt h.quorum) hjoint hpending hretired hcommit hmaster

theorem Node.Valid.sidecar (h : n.Valid) : n.sidecar.mapTexts toValidUtf8 = n.sidecar := by
  have hmap : ∀ l : List Bytes, (∀ t ∈ l, validUtf8 t = true) → l.map toValidUtf8 = l := by
    intro l hl
    exact (map_congr_left fun t ht => (toValidUtf8_eq_self_iff t).2 (hl t ht)).trans (map_id l)
  have hjoint : ∀ t ∈ (n.joint.getD ⟨0, [], 0⟩).peers, validUtf8 t = true := by
    cases hp : n.joint with
    | none => exact nofun
    | some p => exact h.joint p hp
  have hcommit : ∀ t ∈ (n.commit.getD ⟨0, 0, [], 0, [], [], 0⟩).members ++
      (n.commit.getD ⟨0, 0, [], 0, [], [], 0⟩).targets ++
        (n.commit.getD ⟨0, 0, [], 0, [], [], 0⟩).retireTargets, validUtf8 t = true := by
    cases hr : n.commit with
    | none => exact nofun
    | some r => exact h.commit r hr
  simp only [forall_mem_append] at hcommit
  simp only [Sidecar.mapTexts, Node.sidecar, (toValidUtf8_eq_self_iff _).2 h.group, hmap _ h.peers,
    hmap _ hjoint, hmap _ hcommit.1.1, hmap _ hcommit.1.2, hmap _ hcommit.2]

/-- What a careful operation keeps. -/
structure Kept (n n' : Node) : Prop where
  loads : n'.Loads
  master : n'.master = n.master
  texts : n'.Valid

theorem loads_prepared {currentEpoch newEpoch : UInt64}
    (h : n.Loads) (hepoch : n.epoch = currentEpoch.toNat)
    (hlt : currentEpoch.toNat < newEpoch.toNat) (hother : ∃ m ∈ members, m ≠ self)
    (hvalid : validateFailoverPeerSet (members.filter fun a => a ≠ self)
      quorum.toNatClampNeg = .ok ()) :
    Loads { n with joint := some ⟨newEpoch.toNat, members.filter fun a => a ≠ self,
      quorum.toNatClampNeg⟩ } := by
  refine { h with joint := ?_ }
  rintro p ⟨⟩
  obtain ⟨m, hm, hne⟩ := hother
  have hpeers : m ∈ members.filter fun a => a ≠ self := mem_filter.2 ⟨hm, decide_eq_true hne⟩
  have hmajority := validateFailoverPeerSet_ok hvalid
  have hquorum : 0 < quorum.toNatClampNeg := by omega
  exact ⟨hepoch ▸ hlt, newEpoch.toNat_lt, ne_nil_of_mem hpeers, hquorum, quorum.toNatClampNeg_lt⟩

theorem Node.operate_moves {m : Message} (hm : op.message = some m)
    (h : n.operate self op = some n') : Moves self n m n' := by
  unfold operate at h
  rw [hm] at h
  dsimp only at h
  split at h
  · cases h
    exact n.serve_moves self m
  · cases h

theorem Coordinated.members_ne_nil {oldEpoch newEpoch : UInt64}
    (h : Coordinated self oldEpoch newEpoch members quorum) :
    members ≠ [] ∧ 0 < quorum.toNatClampNeg := by
  obtain ⟨peers, hd, hv⟩ := bind_eq_ok h.2.2
  have hmajority := validateFailoverPeerSet_ok hv
  exact ⟨ne_nil_of_mem (deriveFailoverPeersForMember_ok hd).2.1, by omega⟩

theorem Operation.Careful.kept (hc : op.Careful n self) (h : n.Loads)
    (hop : n.operate self op = some n') : Kept n n' := by
  obtain ⟨htexts, hc⟩ := hc
  cases op with
  | prepare group currentEpoch newEpoch members quorum =>
    cases operate_moves rfl hop with
    | same => exact ⟨h, rfl, htexts⟩
    | prepare hepoch hlt hjoint _ hvalid =>
      refine ⟨loads_prepared h hepoch hlt hc.1 hvalid, rfl, { htexts with joint := ?_ }⟩
      rintro p ⟨⟩ t ht
      exact hc.2 t (mem_of_mem_filter ht)
  | commit group epoch =>
    cases operate_moves rfl hop with
    | same => exact ⟨h, rfl, htexts⟩
    | @commit _ _ p hp =>
      obtain ⟨-, hjoint, hepoch⟩ := pendingFor_some hp
      obtain ⟨-, hmax, -, -, hquorum⟩ := h.joint p hjoint
      refine ⟨⟨hmax, hquorum, nofun, h.commit, h.retired, fun e he => ?_⟩, rfl,
        { htexts with peers := htexts.joint p hjoint, joint := nofun }⟩
      -- a consent of this epoch is dropped, an older one is not there
      simp only [install] at he ⊢
      split at he
      · cases he
      · rename_i hne
        refine ⟨Nat.lt_of_not_le fun hle => hne ?_, (h.retirePending e he).2⟩
        rw [he, hc e he (hepoch ▸ hle), hepoch]
  | abort group epoch =>
    cases operate_moves rfl hop with
    | same => exact ⟨h, rfl, htexts⟩
    | abort => exact ⟨{ h with joint := nofun }, rfl, { htexts with joint := nofun }⟩
  | retirePrepare group currentEpoch retireAtEpoch =>
    cases operate_moves rfl hop with
    | same => exact ⟨h, rfl, htexts⟩
    | retirePrepare hepoch hlt =>
      refine ⟨{ h with retirePending := ?_ }, rfl, { htexts with }⟩
      rintro e ⟨⟩
      exact ⟨hepoch ▸ hlt, retireAtEpoch.toNat_lt⟩
  | retire group currentEpoch retireAtEpoch =>
    cases operate_moves rfl hop with
    | same => exact ⟨h, rfl, htexts⟩
    | retire =>
      refine ⟨{ h with retired := ?_, retirePending := nofun }, rfl, { htexts with }⟩
      rintro e ⟨⟩
      exact retireAtEpoch.toNat_lt
  | arm oldEpoch newEpoch members quorum targets retireTargets =>
    obtain ⟨hcoordinated, rfl⟩ : Coordinated self oldEpoch newEpoch members quorum ∧ _ = n' := by
      simpa [operate, Operation.message] using hop
    obtain ⟨hmembers, hquorum⟩ := hcoordinated.members_ne_nil
    refine ⟨{ h with commit := ?_ }, rfl, { htexts with commit := ?_ }⟩
    · rintro r ⟨⟩
      exact ⟨UInt64.lt_iff_toNat_lt.1 hcoordinated.2.1, newEpoch.toNat_lt, hmembers, hquorum,
        quorum.toNatClampNeg_lt, rfl⟩
    · rintro r ⟨⟩
      exact hc
  | clear =>
    cases hop
    exact ⟨{ h with commit := nofun }, rfl, { htexts with commit := nofun }⟩

/-! ## Runs -/

/-- The file is the state of the node, or the node has no file and is as configured. -/
structure Restores (n₀ : Node) (file : Option Bytes) (n : Node) : Prop where
  loads : n.Loads
  master : n₀.master = n.master
  file : (file = none ∧ n = n₀) ∨ (file = some (persistFailoverMembershipState n) ∧ n.Valid)

/-- While a write is under way the file restores the node as it was, and the write will make it
restore the node as it is, or will take the change back. -/
structure Writing (n₀ : Node) (s : Server) (w : SidecarWrite) : Prop where
  before : Restores n₀ s.file w.before
  kept : Kept w.before s.node
  undoes : w.op.rollback w.before s.node = w.before
  payload : ∀ data ∈ w.payload, data = persistFailoverMembershipState s.node

/-- What holds after every careful event. -/
def Saved (n₀ : Node) (s : Server) : Prop :=
  (s.writes = [] ∧ Restores n₀ s.file s.node) ∨ ∃ w, s.writes = [w] ∧ Writing n₀ s w

theorem rollback_operate (h : n.operate self op = some n') : op.rollback n n' = n := by
  cases op with
  | prepare group currentEpoch newEpoch members quorum =>
    cases operate_moves rfl h <;> rfl
  | commit group epoch => cases operate_moves rfl h <;> rfl
  | abort group epoch => cases operate_moves rfl h <;> rfl
  | retirePrepare group currentEpoch retireAtEpoch => cases operate_moves rfl h <;> rfl
  | retire group currentEpoch retireAtEpoch => cases operate_moves rfl h <;> rfl
  | arm oldEpoch newEpoch members quorum targets retireTargets =>
    obtain ⟨-, rfl⟩ : Coordinated self oldEpoch newEpoch members quorum ∧ _ = n' := by
      simpa [operate, Operation.message] using h
    rfl
  | clear =>
    cases h
    rfl

theorem Saved.restores (h : Saved n₀ s) (hidle : s.writes = []) : Restores n₀ s.file s.node := by
  rcases h with ⟨-, h⟩ | ⟨w, hw, -⟩
  · exact h
  · rw [hidle] at hw
    cases hw

theorem Saved.start (h : Saved n₀ s) (hc : Careful self s (.start op))
    (hs : s.step self (.start op) = some s') : Saved n₀ s' := by
  obtain ⟨hidle, hop⟩ := hc
  have hrestores := h.restores hidle
  obtain ⟨n', hn, rfl⟩ := Option.map_eq_some_iff.1 hs
  split_ifs
  · -- the change is in memory only
    refine .inr ⟨_, by rw [hidle]; rfl, hrestores, hop.kept hrestores.loads hn,
      rollback_operate hn, fun data hdata => ?_⟩
    cases hdata
  · exact .inl ⟨hidle, hrestores⟩

/-- The write an event is about is the only one. -/
theorem Saved.writing {i : Nat} {w : SidecarWrite} (h : Saved n₀ s) (hw : s.writes[i]? = some w) :
    i = 0 ∧ s.writes = [w] ∧ Writing n₀ s w := by
  rcases h with ⟨hnone, -⟩ | ⟨w', hone, h⟩
  · rw [hnone] at hw
    cases hw
  · rw [hone, List.getElem?_singleton] at hw
    split_ifs at hw with hi
    cases hw
    exact ⟨hi, hone, h⟩

theorem Saved.snapshot {i : Nat} (h : Saved n₀ s)
    (hs : s.step self (.snapshot i) = some s') : Saved n₀ s' := by
  simp only [Server.step] at hs
  split at hs
  · rename_i op before hw
    obtain ⟨rfl, hone, h⟩ := h.writing hw
    cases hs
    refine .inr ⟨⟨op, before, some (persistFailoverMembershipState s.node)⟩, by rw [hone]; rfl,
      h.before, h.kept, h.undoes, fun data hdata => ?_⟩
    cases hdata
    rfl
  · cases hs

theorem Saved.finish {i : Nat} {o : Outcome} (h : Saved n₀ s) (ho : o ≠ .unconfirmed)
    (hs : s.step self (.finish i o) = some s') : Saved n₀ s' := by
  simp only [Server.step] at hs
  split at hs
  · cases hs
  rename_i w hw
  obtain ⟨rfl, hone, h⟩ := h.writing hw
  have hidle : s.writes.eraseIdx 0 = [] := by rw [hone]; rfl
  split at hs
  · -- a failed write takes the change back
    cases hs
    exact .inl ⟨hidle, by rw [h.undoes]; exact h.before⟩
  · rename_i data hdata
    cases hs
    refine .inl ⟨hidle, h.kept.loads, h.before.master.trans h.kept.master.symm,
      .inr ⟨?_, h.kept.texts⟩⟩
    rw [h.payload data hdata]
  · exact absurd rfl ho
  · cases hs

theorem Saved.step (s : Server) (e : SidecarEvent) (s' : Server) (h : Saved n₀ s)
    (hc : Careful self s e) (hs : s.step self e = some s') : Saved n₀ s' := by
  cases e with
  | start op => exact h.start hc hs
  | snapshot i => exact h.snapshot hs
  | finish i o => exact h.finish hc hs

end

/-- An operation with its write. -/
def accepted (op : Operation) : List SidecarEvent :=
  [.start op, .snapshot 0, .finish 0 .written]

end Membership
end Failover
end SnugKV
