import SnugKV.Cluster.Topology
import SnugKV.Lib.Action
import SnugKV.Lib.Run
import Mathlib.Data.Finset.Card

/-!
# Membership — changing the members of a failover group

A node in the master role proposes a new member list. The members that stay or join enter a joint
state, the members that leave consent to retire; with a majority of both lists the coordinator
writes down that it commits, retires the members that leave, commits itself and tells the others.

* every message names the group and the epoch, but only `PREPARE` has the member list;
* a consent to retire is one for any proposal of the epoch;
* answers and requests get lost or come late, coordinators crash, recovery goes on at any time.

`Careful` is the condition under which nodes that commit one epoch commit the same members.
Epochs are natural numbers where the source has `uint64`, and do not wrap here.
-/

namespace SnugKV
namespace Failover
namespace Membership

open Lib Cluster List

/-! ## One node -/

/-- What a membership command answers with instead of a reply. -/
inductive MembershipError where
  /-- `failover membership requires a group id` -/
  | noGroup
  /-- `new failover membership epoch must increase` -/
  | epochNotHigher
  /-- `invalid failover peer address`, `invalid failover peer port` -/
  | badPeer
  /-- `duplicate failover peer address` -/
  | duplicatePeer
  /-- `failover quorum is not a majority of the proposed membership` -/
  | noMajority
  /-- `another failover membership transition is active` -/
  | active
  /-- `failover_advertise_addr is required for dynamic membership` -/
  | noAddress
  /-- `empty failover member address` -/
  | emptyMember
  /-- `duplicate failover member address` -/
  | duplicateMember
  /-- `invalid failover member address`, `invalid failover member port` -/
  | badMember
  /-- `dynamic membership must include this node` -/
  | selfMissing
  /-- `invalid failover retirement epoch` -/
  | badRetirement
  /-- `failover retirement was not prepared` -/
  | unprepared
  /-- `failover membership transition already active` -/
  | alreadyActive
  /-- `dynamic failover membership requires group id and nonzero epoch` -/
  | noIdentity
  /-- `new failover membership epoch must increase by exactly one` -/
  | epochStep
  /-- `only the current primary may coordinate failover membership` -/
  | notPrimary
  /-- `local failover membership prepare rejected` -/
  | localRejected
  deriving DecidableEq, Repr

/-- A configuration as the group sees it: all the members, with no order. -/
@[ext]
structure Config where
  group : Bytes
  epoch : Nat
  members : Finset Addr
  quorum : Nat

instance : DecidableEq Config := fun _ _ => decidable_of_iff' _ Config.ext_iff

/-- The configuration a node in the joint state waits to commit. -/
structure Pending where
  epoch : Nat
  peers : List Addr
  quorum : Nat
  deriving DecidableEq, Repr

/-- `failoverCommit…`: what a coordinator has decided and has to finish. `attempt` says which of
the coordinations it was; the node does not store it. -/
structure CommitRecord where
  oldEpoch : Nat
  epoch : Nat
  members : List Addr
  quorum : Nat
  targets : List Addr
  retireTargets : List Addr
  attempt : Nat
  deriving DecidableEq, Repr

structure Node where
  group : Bytes
  epoch : Nat
  peers : List Addr
  quorum : Nat
  /-- `failoverJointActive` and the pending configuration. -/
  joint : Option Pending
  retirePending : Option Nat
  retired : Option Nat
  commit : Option CommitRecord
  /-- The node is in the master role. -/
  master : Bool
  deriving DecidableEq, Repr

def Node.config (self : Addr) (n : Node) : Config :=
  ⟨n.group, n.epoch, insert self n.peers.toFinset, n.quorum⟩

def Pending.config (self : Addr) (group : Bytes) (p : Pending) : Config :=
  ⟨group, p.epoch, insert self p.peers.toFinset, p.quorum⟩

/-- `failoverMembershipReply` -/
structure MembershipReply where
  configEpoch : Nat
  pendingEpoch : Nat
  accepted : Bool
  joint : Bool
  deriving DecidableEq, Repr

/-- `failoverRetireReply` -/
structure RetireReply where
  configEpoch : Nat
  retired : Bool
  retiredAtEpoch : Nat
  accepted : Bool
  deriving DecidableEq, Repr

/-- The address checks that both lists go through. -/
def validMember (addr : Addr) : Bool := validateClusterOwnerAddress addr

def checkPeers : List Addr → List Addr → Except MembershipError Unit
  | _, [] => .ok ()
  | seen, peer :: rest =>
    if !validMember peer then .error .badPeer
    else if peer ∈ seen then .error .duplicatePeer
    else checkPeers (peer :: seen) rest

def validateFailoverPeerSet (peers : List Addr) (quorum : Nat) : Except MembershipError Unit := do
  checkPeers [] peers
  let total := peers.length + 1
  if quorum < total / 2 + 1 ∨ total < quorum then .error .noMajority else .ok ()

/-- The loop of `deriveFailoverPeersForMember`: the members before `rest` are in `seen`. The
members are without the space around them that `strings.TrimSpace` takes off. -/
def derivePeers (self : Addr) : List Addr → List Addr → Except MembershipError (List Addr)
  | _, [] => .ok []
  | seen, member :: rest =>
    if member = [] then .error .emptyMember
    else if member ∈ seen then .error .duplicateMember
    else if !validMember member then .error .badMember
    else do
      let peers ← derivePeers self (member :: seen) rest
      .ok (if member = self then peers else member :: peers)

def deriveFailoverPeersForMember (members : List Addr) (self : Addr) :
    Except MembershipError (List Addr) :=
  if self = [] then .error .noAddress
  else do
    let peers ← derivePeers self [] members
    if self ∈ members then .ok peers else .error .selfMissing

/-- The reply that says where the node is. -/
def Node.status (n : Node) : MembershipReply :=
  ⟨n.epoch, (n.joint.map (·.epoch)).getD 0, false, n.joint.isSome⟩

def prepareFailoverMembership (n : Node) (group : Bytes) (currentEpoch newEpoch : Nat)
    (peers : List Addr) (quorum : Nat) : Except MembershipError (MembershipReply × Node) :=
  if group = [] then .error .noGroup
  else if newEpoch ≤ currentEpoch then .error .epochNotHigher
  else do
    validateFailoverPeerSet peers quorum
    if n.group ≠ group ∨ n.epoch ≠ currentEpoch then .ok (n.status, n)
    else
      let accepted : MembershipReply := ⟨currentEpoch, newEpoch, true, true⟩
      match n.joint with
      | some p =>
        if p.epoch = newEpoch ∧ p.quorum = quorum ∧ p.peers = peers then .ok (accepted, n)
        else .error .active
      | none => .ok (accepted, { n with joint := some ⟨newEpoch, peers, quorum⟩ })

def prepareFailoverMembershipMembers (self : Addr) (n : Node) (group : Bytes)
    (currentEpoch newEpoch : Nat) (members : List Addr) (quorum : Nat) :
    Except MembershipError (MembershipReply × Node) := do
  let peers ← deriveFailoverPeersForMember members self
  prepareFailoverMembership n group currentEpoch newEpoch peers quorum

/-- The pending configuration that a message for this group and epoch is about. -/
def Node.pendingFor (n : Node) (group : Bytes) (epoch : Nat) : Option Pending :=
  if n.group = group then n.joint.filter fun p => p.epoch = epoch else none

/-- The node goes over to the pending configuration. -/
def Node.install (n : Node) (p : Pending) : Node :=
  { n with
    epoch := p.epoch, peers := p.peers, quorum := p.quorum, joint := none
    retirePending := if n.retirePending = some p.epoch then none else n.retirePending }

def commitFailoverMembership (n : Node) (group : Bytes) (newEpoch : Nat) :
    MembershipReply × Node :=
  match n.pendingFor group newEpoch with
  | none => (n.status, n)
  | some p => (⟨newEpoch, 0, true, false⟩, n.install p)

def abortFailoverMembership (n : Node) (group : Bytes) (pendingEpoch : Nat) :
    MembershipReply × Node :=
  match n.pendingFor group pendingEpoch with
  | none => (n.status, n)
  | some _ => (⟨n.epoch, 0, true, false⟩, { n with joint := none })

def prepareFailoverRetirement (n : Node) (group : Bytes) (currentEpoch retireAtEpoch : Nat) :
    Except MembershipError (RetireReply × Node) :=
  if group = [] ∨ retireAtEpoch ≤ currentEpoch then .error .badRetirement
  else if n.group ≠ group ∨ n.epoch ≠ currentEpoch then
    .ok (⟨n.epoch, n.retired.isSome, n.retired.getD 0, false⟩, n)
  else
    match n.retired, n.retirePending with
    | some epoch, _ => .ok (⟨currentEpoch, true, epoch, epoch = retireAtEpoch⟩, n)
    | none, some epoch => .ok (⟨currentEpoch, false, epoch, epoch = retireAtEpoch⟩, n)
    | none, none =>
      .ok (⟨currentEpoch, false, retireAtEpoch, true⟩,
        { n with retirePending := some retireAtEpoch })

def retireFailoverMember (n : Node) (group : Bytes) (currentEpoch retireAtEpoch : Nat) :
    Except MembershipError (RetireReply × Node) :=
  if group = [] ∨ retireAtEpoch ≤ currentEpoch then .error .badRetirement
  else if n.group ≠ group ∨ n.epoch ≠ currentEpoch then
    .ok (⟨n.epoch, n.retired.isSome, n.retired.getD 0, false⟩, n)
  else
    match n.retired with
    | some epoch => .ok (⟨currentEpoch, true, epoch, epoch = retireAtEpoch⟩, n)
    | none =>
      if n.retirePending = some retireAtEpoch then
        .ok (⟨currentEpoch, true, retireAtEpoch, true⟩,
          { n with retired := some retireAtEpoch, retirePending := none })
      else .error .unprepared

/-! ## Messages -/

inductive Message where
  | prepare (group : Bytes) (currentEpoch newEpoch : Nat) (members : List Addr) (quorum : Nat)
  | commit (group : Bytes) (epoch : Nat)
  | abort (group : Bytes) (epoch : Nat)
  | retirePrepare (group : Bytes) (currentEpoch retireAtEpoch : Nat)
  | retire (group : Bytes) (currentEpoch retireAtEpoch : Nat)
  deriving DecidableEq, Repr

/-- A yes to the message is a consent to the coordination it belongs to. -/
def Message.consents : Message → Bool
  | .prepare .. | .retirePrepare .. => true
  | _ => false

def Message.commits : Message → Bool
  | .commit .. => true
  | _ => false

/-- A node serves a message: whether the sender takes the answer as a yes, and the node after
it. -/
def Node.serve (self : Addr) (n : Node) : Message → Bool × Node
  | .prepare group currentEpoch newEpoch members quorum =>
    match prepareFailoverMembershipMembers self n group currentEpoch newEpoch members quorum with
    | .error _ => (false, n)
    | .ok (reply, n') => (reply.accepted && reply.joint && reply.pendingEpoch == newEpoch, n')
  | .commit group epoch =>
    let (reply, n') := commitFailoverMembership n group epoch
    (reply.accepted, n')
  | .abort group epoch =>
    let (reply, n') := abortFailoverMembership n group epoch
    (reply.accepted, n')
  | .retirePrepare group currentEpoch retireAtEpoch =>
    match prepareFailoverRetirement n group currentEpoch retireAtEpoch with
    | .error _ => (false, n)
    | .ok (reply, n') => (reply.accepted, n')
  | .retire group currentEpoch retireAtEpoch =>
    match retireFailoverMember n group currentEpoch retireAtEpoch with
    | .error _ => (false, n)
    | .ok (reply, n') => (reply.accepted && reply.retired, n')

/-- What recovery sends to a target. -/
inductive RecoveryMessage where
  | retirePrepare
  | retire
  | prepare
  | commit
  deriving DecidableEq, Repr

/-- What becomes of a message. -/
inductive Fate where
  /-- It is served and the answer comes back. -/
  | answered
  /-- It is served and the answer is lost. -/
  | unanswered
  /-- The sender gives up; the message may be served later, or never. -/
  | late
  deriving DecidableEq, Repr

/-! ## Coordinations -/

inductive Stage where
  | preparing
  | retiring
  /-- Written down as decided: `armFailoverMembershipCommitRecovery`. -/
  | armed
  | aborting
  /-- Given up, by an abort or by a crash. -/
  | dropped
  deriving DecidableEq, Repr

/-- A run of `coordinateFailoverMembershipChange`. -/
structure Attempt where
  coordinator : Addr
  group : Bytes
  oldEpoch : Nat
  oldMembers : List Addr
  oldQuorum : Nat
  members : List Addr
  quorum : Nat
  stage : Stage
  /-- The nodes that are still to be asked at this stage. -/
  todo : List Addr
  /-- The nodes, apart from the coordinator, whose `PREPARE` was answered with a yes. -/
  prepared : List Addr
  retirePrepared : List Addr
  deriving DecidableEq, Repr

namespace Attempt

def epoch (t : Attempt) : Nat := t.oldEpoch + 1

def config (t : Attempt) : Config := ⟨t.group, t.epoch, t.members.toFinset, t.quorum⟩

def oldConfig (t : Attempt) : Config := ⟨t.group, t.oldEpoch, t.oldMembers.toFinset, t.oldQuorum⟩

def removed (t : Attempt) : List Addr := t.oldMembers.filter fun a => a ∉ t.members

def newAcks (t : Attempt) : Nat := 1 + t.prepared.length

def oldAcks (t : Attempt) : Nat :=
  1 + (t.prepared.filter fun a => a ∈ t.oldMembers).length + t.retirePrepared.length

def running (t : Attempt) : Bool := t.stage == .preparing || t.stage == .retiring

def message (t : Attempt) : Option Message :=
  match t.stage with
  | .preparing => some (.prepare t.group t.oldEpoch t.epoch t.members t.quorum)
  | .retiring => some (.retirePrepare t.group t.oldEpoch t.epoch)
  | .aborting => some (.abort t.group t.epoch)
  | _ => none

def asked (t : Attempt) (a : Addr) (rest : List Addr) (yes : Bool) : Attempt :=
  match t.stage, yes with
  | .preparing, true => { t with todo := rest, prepared := t.prepared ++ [a] }
  | .retiring, true => { t with todo := rest, retirePrepared := t.retirePrepared ++ [a] }
  | _, _ => { t with todo := rest }

def record (t : Attempt) (i : Nat) : CommitRecord :=
  ⟨t.oldEpoch, t.epoch, t.members, t.quorum, t.members, t.retirePrepared, i⟩

def live (t : Attempt) : Bool := t.stage != .aborting && t.stage != .dropped

end Attempt

/-- `coordinateFailoverMembershipChange` up to the first message: the coordinator prepares
itself. -/
def coordinateFailoverMembershipChange (self : Addr) (n : Node) (newEpoch : Nat)
    (members : List Addr) (quorum : Nat) : Except MembershipError (Attempt × Node) :=
  if n.joint.isSome ∨ n.commit.isSome then .error .alreadyActive
  else if n.group = [] ∨ n.epoch = 0 then .error .noIdentity
  else if newEpoch ≠ n.epoch + 1 then .error .epochStep
  else if self = [] then .error .noAddress
  else if !n.master then .error .notPrimary
  else do
    let peers ← deriveFailoverPeersForMember members self
    validateFailoverPeerSet peers quorum
    let (reply, n') ← prepareFailoverMembershipMembers
      self n n.group n.epoch newEpoch members quorum
    if reply.accepted then
      .ok (⟨self, n.group, n.epoch, self :: n.peers, n.quorum, members, quorum, .preparing,
        members.filter fun a => a ≠ self, [], []⟩, n')
    else .error .localRejected

def Attempt.conclude (t : Attempt) : Attempt :=
  let abort := { t with stage := .aborting, todo := t.prepared }
  match t.stage with
  | .preparing =>
    if t.newAcks < t.quorum ∨ t.oldAcks + t.removed.length < t.oldQuorum then abort
    else { t with stage := .retiring, todo := t.removed }
  | .retiring => if t.oldAcks < t.oldQuorum then abort else { t with stage := .armed }
  | .aborting => { t with stage := .dropped }
  | _ => t

/-- The messages of `retryFailoverMembershipCommit`. -/
def CommitRecord.message (r : CommitRecord) (group : Bytes) : RecoveryMessage → Message
  | .retirePrepare => .retirePrepare group r.oldEpoch r.epoch
  | .retire => .retire group r.oldEpoch r.epoch
  | .prepare => .prepare group r.oldEpoch r.epoch r.members r.quorum
  | .commit => .commit group r.epoch

/-- When node `a` with state `n` sends them to `x` with state `s`. -/
def CommitRecord.Sends (r : CommitRecord) (a : Addr) (n : Node) (x : Addr) (s : Node) :
    RecoveryMessage → Prop
  | .retirePrepare => x ∈ r.retireTargets ∧ s.group = n.group ∧ s.epoch = r.oldEpoch ∧
      s.retired ≠ some r.epoch ∧ s.retirePending ≠ some r.epoch
  | .retire => x ∈ r.retireTargets ∧ s.group = n.group ∧ s.epoch = r.oldEpoch ∧
      s.retired ≠ some r.epoch
  | .prepare => n.epoch = r.epoch ∧ n.joint = none ∧ x ∈ r.targets ∧ x ≠ a ∧
      s.group = n.group ∧ s.epoch = r.oldEpoch ∧ s.joint = none
  -- also to a node that could not be asked for its state, or is in another joint state
  | .commit => n.epoch = r.epoch ∧ n.joint = none ∧ x ∈ r.targets ∧ x ≠ a

instance (r : CommitRecord) (a : Addr) (n : Node) (x : Addr) (s : Node) :
    ∀ m, Decidable (r.Sends a n x s m)
  | .retirePrepare => inferInstanceAs (Decidable (_ ∧ _))
  | .retire => inferInstanceAs (Decidable (_ ∧ _))
  | .prepare => inferInstanceAs (Decidable (_ ∧ _))
  | .commit => inferInstanceAs (Decidable (_ ∧ _))

/-! ## The network -/

/-- A message on its way. `attempt` says which coordination it belongs to; it is not part of the
message. -/
structure Envelope where
  target : Addr
  message : Message
  attempt : Nat
  deriving DecidableEq, Repr

structure Net where
  nodes : Addr → Node
  attempts : List Attempt
  lates : List Envelope
  /-- Who has said yes to which coordination that was still running. -/
  consents : List (Addr × Nat)
  /-- Every configuration a node has committed. -/
  history : List (Addr × Config)

inductive Event where
  | role (a : Addr) (master : Bool)
  | coordinate (a : Addr) (newEpoch : Nat) (members : List Addr) (quorum : Nat)
  /-- The next message of a coordination. -/
  | ask (i : Nat) (fate : Fate)
  /-- All nodes of the stage have been asked. -/
  | conclude (i : Nat)
  /-- The coordinations of the node end where they are. -/
  | crash (a : Addr)
  | recover (a target : Addr) (message : RecoveryMessage) (fate : Fate)
  /-- The local commit of `retryFailoverMembershipCommit`. -/
  | commitLocal (a : Addr)
  /-- `clearFailoverMembershipCommitRecovery` -/
  | clear (a : Addr)
  | late (k : Nat)
  deriving DecidableEq, Repr

def Event.serves : Event → Bool
  | .ask _ fate | .recover _ _ _ fate => fate != .late
  | _ => true

namespace Net

def set (g : Net) (a : Addr) (n : Node) : Net :=
  { g with nodes := Function.update g.nodes a n }

def setAttempt (g : Net) (i : Nat) (t : Attempt) : Net :=
  { g with attempts := g.attempts.set i t }

def running (g : Net) (i : Nat) : Bool := (g.attempts[i]?).any (·.running)

def deliver (g : Net) (e : Envelope) : Bool × Net :=
  let (yes, n) := (g.nodes e.target).serve e.target e.message
  (yes, { g.set e.target n with
    consents := if yes && e.message.consents && g.running e.attempt then
      (e.target, e.attempt) :: g.consents else g.consents
    history := if yes && e.message.commits then
      (e.target, n.config e.target) :: g.history else g.history })

/-- A message with its fate: whether the sender learns of a yes, and the network after it. -/
def send (g : Net) (e : Envelope) : Fate → Bool × Net
  | .answered => g.deliver e
  | .unanswered => (false, (g.deliver e).2)
  | .late => (false, { g with lates := e :: g.lates })

def envelope (g : Net) : Event → Option Envelope
  | .ask i _ => do
      let t ← g.attempts[i]?
      let m ← t.message
      let x ← t.todo.head?
      some ⟨x, m, i⟩
  | .recover a x m _ => do
      let r ← (g.nodes a).commit
      some ⟨x, r.message (g.nodes a).group m, r.attempt⟩
  | .commitLocal a => do
      let r ← (g.nodes a).commit
      some ⟨a, .commit (g.nodes a).group r.epoch, r.attempt⟩
  | .late k => g.lates[k]?
  | _ => none

def step (g : Net) : Event → Option Net
  | .role a master => some (g.set a { g.nodes a with master := master })
  | .coordinate a newEpoch members quorum =>
    match coordinateFailoverMembershipChange a (g.nodes a) newEpoch members quorum with
    | .error _ => none
    | .ok (t, n) => some { g.set a n with
        attempts := g.attempts ++ [t], consents := (a, g.attempts.length) :: g.consents }
  | .ask i fate =>
    match g.attempts[i]?, g.envelope (.ask i fate) with
    | some t, some e =>
      let (yes, g') := g.send e fate
      some (g'.setAttempt i (t.asked e.target t.todo.tail yes))
    | _, _ => none
  | .conclude i =>
    match g.attempts[i]? with
    | none => none
    | some t =>
      if t.todo ≠ [] ∨ t.stage = .armed ∨ t.stage = .dropped then none
      else
        let g' := g.setAttempt i t.conclude
        let n := g.nodes t.coordinator
        match t.conclude.stage with
        | .armed => some (g'.set t.coordinator { n with commit := some (t.record i) })
        | .dropped =>
          some (g'.set t.coordinator (abortFailoverMembership n t.group t.epoch).2)
        | _ => some g'
  | .crash a => some { g with attempts := g.attempts.map fun t =>
    if t.coordinator = a ∧ t.stage ≠ .armed then { t with stage := .dropped } else t }
  | .recover a x m fate =>
    match (g.nodes a).commit, g.envelope (.recover a x m fate) with
    | some r, some e =>
      if r.Sends a (g.nodes a) x (g.nodes x) m then some (g.send e fate).2 else none
    | _, _ => none
  | .commitLocal a =>
    let n := g.nodes a
    match n.commit, g.envelope (.commitLocal a) with
    | some r, some e =>
      -- every member that leaves has retired
      if (∀ x ∈ r.retireTargets, (g.nodes x).group = n.group ∧
            (g.nodes x).retired = some r.epoch) ∧ n.epoch = r.oldEpoch then
        some (g.deliver e).2
      else none
    | _, _ => none
  | .clear a =>
    let n := g.nodes a
    match n.commit with
    | some r =>
      if n.epoch = r.epoch ∧ n.joint = none ∧
          ∀ x ∈ r.targets, x ≠ a → r.epoch ≤ (g.nodes x).epoch then
        some (g.set a { n with commit := none })
      else none
    | none => none
  | .late k =>
    match g.lates[k]? with
    | some e => some { (g.deliver e).2 with lates := g.lates.eraseIdx k }
    | none => none

/-! ## The condition -/

/-- Node `x` has said yes to no other configuration of the group and epoch whose coordination has
not been given up. -/
def Free (g : Net) (x : Addr) (C : Config) : Prop :=
  ∀ c ∈ g.consents, c.1 = x → ∀ t ∈ g.attempts[c.2]?, t.live = true → t.group = C.group →
    t.epoch = C.epoch → t.config = C

/-- A node that says yes to a coordination is free to do so, and a commit finds the configuration
of its coordination pending. -/
def InOrder (g : Net) (e : Envelope) : Prop :=
  match e.message with
  | .prepare .. | .retirePrepare .. =>
    ((g.nodes e.target).serve e.target e.message).1 = true →
      ∀ t ∈ g.attempts[e.attempt]?, t.running = true → g.Free e.target t.config
  | .commit group epoch =>
    ∀ p ∈ (g.nodes e.target).pendingFor group epoch, ∀ t ∈ g.attempts[e.attempt]?,
      p.config e.target group = t.config
  | _ => True

/-- Besides, a coordinator has committed the configuration it starts from. -/
def Careful (g : Net) (e : Event) : Prop :=
  match e with
  | .coordinate a newEpoch members quorum =>
    (a, (g.nodes a).config a) ∈ g.history ∧
      g.Free a ⟨(g.nodes a).group, newEpoch, members.toFinset, quorum⟩
  | _ => e.serves = true → ∀ env ∈ g.envelope e, g.InOrder env

instance (g : Net) (x : Addr) (C : Config) : Decidable (g.Free x C) :=
  inferInstanceAs (Decidable (∀ c ∈ g.consents, _))

instance (g : Net) (e : Envelope) : Decidable (g.InOrder e) := by
  unfold InOrder
  split <;> infer_instance

instance (g : Net) (e : Event) : Decidable (g.Careful e) := by
  unfold Careful
  split <;> infer_instance

/-- Members that have just started, each group with one configuration, and nodes that have not
joined yet. -/
structure Started (g : Net) : Prop where
  distinct : ∀ x, (x :: (g.nodes x).peers).Nodup
  calm : ∀ x, (g.nodes x).joint = none ∧ (g.nodes x).commit = none
  members : ∀ x C, (x, C) ∈ g.history → (g.nodes x).config x = C
  founded : ∀ x C y D, (x, C) ∈ g.history → (y, D) ∈ g.history → C.group = D.group → C = D
  majority : ∀ x C, (x, C) ∈ g.history → C.members.card < 2 * C.quorum
  attempts : g.attempts = []
  consents : g.consents = []
  lates : g.lates = []

/-- Nodes that have committed one epoch of a group have committed the same configuration. -/
def Agreed (g : Net) : Prop :=
  ∀ x C y D, (x, C) ∈ g.history → (y, D) ∈ g.history → C.group = D.group → C.epoch = D.epoch →
    C = D

end Net

/-! ## Lists -/

theorem derivePeers_ok {self : Addr} : ∀ {members seen peers : List Addr},
    derivePeers self seen members = .ok peers →
      members.Nodup ∧ (∀ m ∈ members, m ∉ seen) ∧ peers = members.filter fun a => a ≠ self := by
  intro members
  induction members with
  | nil =>
    intro seen peers h
    cases h
    simp
  | cons m rest ih =>
    intro seen peers h
    unfold derivePeers at h
    split at h
    · cases h
    split at h
    · cases h
    rename_i hseen
    split at h
    · cases h
    obtain ⟨qs, hrest, hqs⟩ := bind_eq_ok h
    have hpeers : (if m = self then qs else m :: qs) = peers := Except.ok.inj hqs
    obtain ⟨hnodup, hfresh, rfl⟩ := ih hrest
    have hm : m ∉ rest := fun hmem => hfresh m hmem (mem_cons_self ..)
    refine ⟨nodup_cons.2 ⟨hm, hnodup⟩, fun x hx => ?_, ?_⟩
    · rcases mem_cons.1 hx with rfl | hx
      · exact hseen
      · exact fun hin => hfresh x hx (mem_cons_of_mem _ hin)
    · rw [← hpeers]
      by_cases hself : m = self <;> simp [hself]

variable {members peers : List Addr}

theorem deriveFailoverPeersForMember_ok {self : Addr}
    (h : deriveFailoverPeersForMember members self = .ok peers) :
    members.Nodup ∧ self ∈ members ∧ peers = members.filter fun a => a ≠ self := by
  unfold deriveFailoverPeersForMember at h
  split at h
  · cases h
  obtain ⟨qs, hd, h⟩ := bind_eq_ok h
  split at h
  · rename_i hself
    cases h
    obtain ⟨hnodup, -, rfl⟩ := derivePeers_ok hd
    exact ⟨hnodup, hself, rfl⟩
  · cases h

variable {quorum newEpoch : Nat}

theorem validateFailoverPeerSet_ok
    (h : validateFailoverPeerSet peers quorum = .ok ()) : peers.length + 1 < 2 * quorum := by
  obtain ⟨-, -, h⟩ := bind_eq_ok h
  dsimp only at h
  split at h
  · cases h
  · omega

/-! ## Serving a message -/

/-- A node names its peers once, and itself not among them. -/
structure Node.Distinct (a : Addr) (n : Node) : Prop where
  peers : (a :: n.peers).Nodup
  joint : ∀ p ∈ n.joint, (a :: p.peers).Nodup

/-- What a message does to a node: the commit record stays, and so does the configuration, unless
the message commits the pending one. -/
structure Served (a : Addr) (n : Node) (m : Message) (yes : Bool) (n' : Node) : Prop where
  group : n'.group = n.group
  commit : n'.commit = n.commit
  distinct : n.Distinct a → n'.Distinct a
  config : n'.config a = n.config a ∨ (yes = true ∧ m.commits = true)
  committed : ∀ group epoch, m = .commit group epoch → yes = true →
    ∃ p ∈ n.pendingFor group epoch, n'.config a = p.config a group

variable {yes : Bool}

section

variable {self : Addr} {n n' : Node} {m : Message} {group : Bytes}

theorem Served.refl (h : ∀ group epoch, m = .commit group epoch → yes = false) :
    Served self n m yes n where
  group := rfl
  commit := rfl
  distinct := id
  config := .inl rfl
  committed := fun group epoch hm hyes => by
    rw [h group epoch hm] at hyes
    cases hyes

/-- A prepare that is answered: the node stays as it is, or waits for the new configuration. -/
theorem prepareFailoverMembershipMembers_ok {currentEpoch : Nat} {reply : MembershipReply}
    (h : prepareFailoverMembershipMembers self n group currentEpoch newEpoch members quorum =
      .ok (reply, n')) :
    (n' = n ∧ (reply.accepted = true → n.joint ≠ none)) ∨
      ((n.group = group ∧ n.epoch = currentEpoch ∧ n.joint = none) ∧
        (currentEpoch < newEpoch ∧ members.Nodup ∧
          validateFailoverPeerSet (members.filter fun a => a ≠ self) quorum = .ok ()) ∧
        n' = { n with joint := some ⟨newEpoch, members.filter fun a => a ≠ self, quorum⟩ }) := by
  obtain ⟨peers, hd, h⟩ := bind_eq_ok h
  obtain ⟨hnodup, -, rfl⟩ := deriveFailoverPeersForMember_ok hd
  unfold prepareFailoverMembership at h
  split at h
  · cases h
  split at h
  · cases h
  rename_i hepoch
  obtain ⟨⟨⟩, hvalid, h⟩ := bind_eq_ok h
  split at h
  · cases h
    exact .inl ⟨rfl, nofun⟩
  rename_i hhere
  obtain ⟨hgroup, hcurrent⟩ := not_or.1 hhere
  split at h
  · rename_i p hjoint
    split at h
    · cases h
      exact .inl ⟨rfl, fun _ => hjoint ▸ nofun⟩
    · cases h
  · rename_i hjoint
    cases h
    exact .inr ⟨⟨not_not.1 hgroup, not_not.1 hcurrent, hjoint⟩,
      ⟨Nat.lt_of_not_le hepoch, hnodup, hvalid⟩, rfl⟩

theorem Node.pendingFor_some {epoch : Nat} {p : Pending} (h : n.pendingFor group epoch = some p) :
    n.group = group ∧ n.joint = some p ∧ p.epoch = epoch := by
  unfold Node.pendingFor at h
  split at h
  · rename_i hg
    obtain ⟨hp, he⟩ := Option.filter_eq_some_iff.1 h
    exact ⟨hg, hp, by simpa using he⟩
  · cases h

/-- What serving a message can make of a node. -/
inductive Moves (self : Addr) (n : Node) : Message → Node → Prop
  | same (m : Message) : Moves self n m n
  | prepare {currentEpoch newEpoch : Nat} {members : List Addr} {quorum : Nat} :
      n.epoch = currentEpoch → currentEpoch < newEpoch → n.joint = none → members.Nodup →
      validateFailoverPeerSet (members.filter fun a => a ≠ self) quorum = .ok () →
      Moves self n (.prepare n.group currentEpoch newEpoch members quorum)
        { n with joint := some ⟨newEpoch, members.filter fun a => a ≠ self, quorum⟩ }
  | commit {group : Bytes} {epoch : Nat} {p : Pending} : n.pendingFor group epoch = some p →
      Moves self n (.commit group epoch) (n.install p)
  | abort {group : Bytes} {epoch : Nat} :
      Moves self n (.abort group epoch) { n with joint := none }
  | retirePrepare {group : Bytes} {currentEpoch retireAtEpoch : Nat} :
      n.epoch = currentEpoch → currentEpoch < retireAtEpoch →
      Moves self n (.retirePrepare group currentEpoch retireAtEpoch)
        { n with retirePending := some retireAtEpoch }
  | retire {group : Bytes} {currentEpoch retireAtEpoch : Nat} :
      n.retirePending = some retireAtEpoch →
      Moves self n (.retire group currentEpoch retireAtEpoch)
        { n with retired := some retireAtEpoch, retirePending := none }

theorem Node.serve_moves (self : Addr) (n : Node) (m : Message) :
    Moves self n m (n.serve self m).2 := by
  cases m with
  | prepare group currentEpoch newEpoch members quorum =>
    simp only [Node.serve]
    split
    · exact .same _
    · rename_i reply n' heq
      rcases prepareFailoverMembershipMembers_ok heq with
        ⟨rfl, -⟩ | ⟨⟨rfl, hcurrent, hjoint⟩, ⟨hepoch, hnodup, hvalid⟩, rfl⟩
      · exact .same _
      · exact .prepare hcurrent hepoch hjoint hnodup hvalid
  | commit group epoch =>
    simp only [Node.serve, commitFailoverMembership]
    cases hp : n.pendingFor group epoch with
    | none => exact .same _
    | some p => exact .commit hp
  | abort group epoch =>
    simp only [Node.serve, abortFailoverMembership]
    split
    · exact .same _
    · exact .abort
  | retirePrepare group currentEpoch retireAtEpoch =>
    simp only [Node.serve]
    split
    · exact .same _
    · rename_i reply n' heq
      unfold prepareFailoverRetirement at heq
      split at heq
      · cases heq
      rename_i hepoch
      split at heq
      · cases heq
        exact .same _
      rename_i hhere
      split at heq <;> cases heq
      · exact .same _
      · exact .same _
      · exact .retirePrepare (not_not.1 (not_or.1 hhere).2) (Nat.lt_of_not_le (not_or.1 hepoch).2)
  | retire group currentEpoch retireAtEpoch =>
    simp only [Node.serve]
    split
    · exact .same _
    · rename_i reply n' heq
      unfold retireFailoverMember at heq
      split at heq
      · cases heq
      split at heq
      · cases heq
        exact .same _
      split at heq
      · cases heq
        exact .same _
      split at heq
      · rename_i hpending
        cases heq
        exact .retire hpending
      · cases heq

theorem Moves.served (h : Moves self n m n') (hm : m.commits = false) : Served self n m yes n' := by
  have hcommit : ∀ group epoch, m ≠ .commit group epoch := by
    rintro group epoch rfl
    cases hm
  cases h with
  | same => exact .refl fun _ _ hm => (hcommit _ _ hm).elim
  | prepare _ _ _ hnodup =>
    refine ⟨rfl, rfl, fun hd => ⟨hd.peers, fun p hp => ?_⟩, .inl rfl, nofun⟩
    cases hp
    exact nodup_cons.2 ⟨by simp, hnodup.filter _⟩
  | commit => cases hm
  | abort =>
    exact ⟨rfl, rfl, fun hd => ⟨hd.peers, nofun⟩, .inl rfl, nofun⟩
  | retirePrepare | retire =>
    exact ⟨rfl, rfl, fun hd => ⟨hd.peers, hd.joint⟩, .inl rfl, nofun⟩

theorem Node.serve_served (self : Addr) (n : Node) (m : Message) :
    Served self n m (n.serve self m).1 (n.serve self m).2 := by
  cases m with
  | commit group epoch =>
    simp only [Node.serve, commitFailoverMembership]
    cases hp : n.pendingFor group epoch with
    | none => exact .refl fun _ _ _ => rfl
    | some p =>
      obtain ⟨rfl, hjoint, -⟩ := Node.pendingFor_some hp
      refine ⟨rfl, rfl, fun hd => ⟨hd.joint p hjoint, nofun⟩, .inr ⟨rfl, rfl⟩, fun _ _ hm _ => ?_⟩
      cases hm
      exact ⟨p, hp, rfl⟩
  | _ => exact (n.serve_moves self _).served rfl

end

/-! ## The invariant -/

namespace Attempt

def toPrepare (t : Attempt) : List Addr := if t.stage = .preparing then t.todo else []

def toRetire (t : Attempt) : List Addr := if t.stage = .retiring then t.todo else []

/-- The old members whose consent was counted. -/
def counted (t : Attempt) : List Addr :=
  t.coordinator :: ((t.prepared.filter fun a => a ∈ t.oldMembers) ++ t.retirePrepared)

theorem counted_length (t : Attempt) : t.counted.length = t.oldAcks := by
  simp only [counted, oldAcks, length_cons, length_append]
  omega

/-- What holds of a coordination at every stage. -/
structure Sound (history : List (Addr × Config)) (consents : List (Addr × Nat)) (i : Nat)
    (t : Attempt) : Prop where
  old : (t.coordinator, t.oldConfig) ∈ history
  majority : t.members.toFinset.card < 2 * t.quorum
  oldNodup : t.oldMembers.Nodup
  coordinatorOld : t.coordinator ∈ t.oldMembers
  coordinatorNew : t.coordinator ∈ t.members
  prepareNodup : (t.coordinator :: (t.prepared ++ t.toPrepare)).Nodup
  prepareNew : ∀ x ∈ t.prepared ++ t.toPrepare, x ∈ t.members
  unretired : t.stage = .preparing → t.retirePrepared = []
  retireNodup : (t.retirePrepared ++ t.toRetire).Nodup
  retireRemoved : ∀ x ∈ t.retirePrepared ++ t.toRetire, x ∈ t.removed
  consented : ∀ x ∈ t.coordinator :: (t.prepared ++ t.retirePrepared), (x, i) ∈ consents
  decided : t.stage = .armed → t.oldQuorum ≤ t.oldAcks

variable {history history' : List (Addr × Config)} {consents consents' : List (Addr × Nat)}
  {i : Nat} {t : Attempt}

section

variable (h : t.Sound history consents i) {rest : List Addr}

include h

theorem Sound.mono (hhistory : history ⊆ history')
    (hconsents : consents ⊆ consents') : t.Sound history' consents' i :=
  { h with
    old := hhistory h.old
    consented := fun x hx => hconsents (h.consented x hx) }

theorem Sound.counted_nodup : t.counted.Nodup := by
  have hprep := h.prepareNodup
  have hsub : (t.coordinator :: t.prepared.filter fun a => a ∈ t.oldMembers).Nodup :=
    hprep.sublist ((filter_sublist.trans (sublist_append_left _ _)).cons_cons _)
  have hretire : t.retirePrepared.Nodup := Nodup.of_append_left h.retireNodup
  refine (nodup_append.2 ⟨hsub, hretire, fun x hx y hy hxy => ?_⟩ :
    ((t.coordinator :: t.prepared.filter fun a => a ∈ t.oldMembers) ++ t.retirePrepared).Nodup)
  -- a member that stays is not one that leaves
  subst hxy
  have hleaves := h.retireRemoved x (mem_append_left _ hy)
  have hout : x ∉ t.members := by simpa using (mem_filter.1 hleaves).2
  rcases mem_cons.1 hx with rfl | hx
  · exact hout h.coordinatorNew
  · exact hout (h.prepareNew x (mem_append_left _ (mem_filter.1 hx).1))

theorem Sound.counted_old : ∀ x ∈ t.counted, x ∈ t.oldMembers := by
  intro x hx
  rcases mem_cons.1 hx with rfl | hx
  · exact h.coordinatorOld
  rcases mem_append.1 hx with hx | hx
  · simpa using (mem_filter.1 hx).2
  · exact (mem_filter.1 (h.retireRemoved x (mem_append_left _ hx))).1

theorem Sound.counted_consented : ∀ x ∈ t.counted, (x, i) ∈ consents := by
  intro x hx
  refine h.consented x ?_
  rcases mem_cons.1 hx with rfl | hx
  · exact mem_cons_self ..
  rcases mem_append.1 hx with hx | hx
  · exact mem_cons_of_mem _ (mem_append_left _ (mem_filter.1 hx).1)
  · exact mem_cons_of_mem _ (mem_append_right _ hx)

theorem Sound.shrink {stage : Stage} {todo : List Addr}
    (hprepare : ({ t with stage := stage, todo := todo } : Attempt).toPrepare.Sublist t.toPrepare)
    (hretire : ({ t with stage := stage, todo := todo } : Attempt).toRetire.Sublist t.toRetire)
    (hunretired : stage = .preparing → t.retirePrepared = [])
    (hdecided : stage = .armed → t.oldQuorum ≤ t.oldAcks) :
    ({ t with stage := stage, todo := todo } : Attempt).Sound history consents i :=
  { h with
    prepareNodup := h.prepareNodup.sublist ((hprepare.append_left _).cons_cons _)
    prepareNew := fun y hy => h.prepareNew y ((hprepare.append_left _).subset hy)
    unretired := hunretired
    retireNodup := h.retireNodup.sublist (hretire.append_left _)
    retireRemoved := fun y hy => h.retireRemoved y ((hretire.append_left _).subset hy)
    decided := hdecided }

theorem Sound.settle (stage : Stage) (todo : List Addr)
    (hp : stage ≠ .preparing) (hr : stage ≠ .retiring)
    (hdecided : stage = .armed → t.oldQuorum ≤ t.oldAcks) :
    ({ t with stage := stage, todo := todo } : Attempt).Sound history consents i := by
  refine h.shrink ?_ ?_ (fun hstage => absurd hstage hp) hdecided
  · rw [toPrepare, if_neg hp]
    exact nil_sublist _
  · rw [toRetire, if_neg hr]
    exact nil_sublist _

theorem Sound.skip {x : Addr} (htodo : t.todo = x :: rest) :
    ({ t with todo := rest } : Attempt).Sound history consents i := by
  refine h.shrink ?_ ?_ h.unretired h.decided
  · unfold toPrepare
    split <;> simp [htodo]
  · unfold toRetire
    split <;> simp [htodo]

theorem Sound.asked {x : Addr} (htodo : t.todo = x :: rest)
    (hyes : yes = true → t.running = true → (x, i) ∈ consents) :
    (t.asked x rest yes).Sound history consents i := by
  have hskip := h.skip htodo
  have hconsented : yes = true → t.running = true →
      ∀ y, y ∈ t.coordinator :: (t.prepared ++ t.retirePrepared) ∨ y = x → (y, i) ∈ consents := by
    rintro hy hrun y (hmem | rfl)
    · exact h.consented y hmem
    · exact hyes hy hrun
  unfold Attempt.asked
  split
  · rename_i hstage
    have hnodup := h.prepareNodup
    have hnew := h.prepareNew
    simp only [toPrepare, hstage, if_true, htodo] at hnodup hnew
    exact { hskip with
      prepareNodup := by simpa [toPrepare, hstage] using hnodup
      prepareNew := by simpa [toPrepare, hstage] using hnew
      consented := fun y hy => hconsented rfl (by simp [running, hstage]) y (by
        simp only [mem_cons, mem_append, not_mem_nil, or_false] at hy ⊢
        tauto)
      decided := fun harmed => by simp [hstage] at harmed }
  · rename_i hstage
    have hnodup := h.retireNodup
    have hout := h.retireRemoved
    simp only [toRetire, hstage, if_true, htodo] at hnodup hout
    exact { hskip with
      unretired := fun hpreparing => by simp [hstage] at hpreparing
      retireNodup := by simpa [toRetire, hstage] using hnodup
      retireRemoved := fun y hy => hout y (by simpa [toRetire, hstage] using hy)
      consented := fun y hy => hconsented rfl (by simp [running, hstage]) y (by
        simp only [mem_cons, mem_append, not_mem_nil, or_false] at hy ⊢
        tauto)
      decided := fun harmed => by simp [hstage] at harmed }
  · exact hskip

theorem Sound.conclude : t.conclude.Sound history consents i := by
  have habort :
      ({ t with stage := .aborting, todo := t.prepared } : Attempt).Sound history consents i :=
    h.settle .aborting t.prepared nofun nofun nofun
  unfold Attempt.conclude
  split
  · rename_i hstage
    split
    · exact habort
    · have hnone := h.unretired hstage
      have hprep := h.settle .dropped [] nofun nofun nofun
      exact { h with
        prepareNodup := hprep.prepareNodup
        prepareNew := hprep.prepareNew
        unretired := nofun
        retireNodup := by
          rw [show t.retirePrepared = [] from hnone]
          exact h.oldNodup.filter _
        retireRemoved := fun x hx => by
          rw [show t.retirePrepared = [] from hnone] at hx
          exact hx
        decided := nofun }
  · split
    · exact habort
    · rename_i hquorum
      exact h.settle .armed t.todo nofun nofun fun _ => Nat.le_of_not_lt hquorum
  · exact h.settle .dropped t.todo nofun nofun nofun
  · exact h

end

theorem conclude_config (t : Attempt) : t.conclude.config = t.config := by
  unfold conclude
  split
  · split <;> rfl
  · split <;> rfl
  · rfl
  · rfl

theorem conclude_live (h : t.conclude.live = true) : t.live = true := by
  unfold conclude at h
  unfold live at h ⊢
  cases hstage : t.stage <;> simp_all

end Attempt

namespace Net

/-- The coordination was decided for. -/
def Armed (g : Net) (i : Nat) : Prop := ∃ t, g.attempts[i]? = some t ∧ t.stage = .armed

/-- A node has consented to one configuration that may still be decided for. -/
def Exclusive (attempts : List Attempt) (consents : List (Addr × Nat)) : Prop :=
  ∀ x i j t u, (x, i) ∈ consents → (x, j) ∈ consents → attempts[i]? = some t →
    attempts[j]? = some u → t.live = true → u.live = true → t.group = u.group →
      t.epoch = u.epoch → t.config = u.config

/-- What holds in every state of a careful run. `founding` is what was committed before it. -/
structure Safe (founding : List (Addr × Config)) (g : Net) : Prop where
  distinct : ∀ x, (g.nodes x).Distinct x
  kept : founding ⊆ g.history
  committed : ∀ x C, (x, C) ∈ g.history → (x, C) ∈ founding ∨
    ∃ (i : Nat) (t : Attempt), g.attempts[i]? = some t ∧ t.stage = .armed ∧ t.config = C
  /-- What a member has now is the last thing it committed. -/
  current : ∀ x C, (x, C) ∈ g.history → (x, (g.nodes x).config x) ∈ g.history
  attempts : ∀ (i : Nat) (t : Attempt), g.attempts[i]? = some t →
    t.Sound g.history g.consents i
  records : ∀ a r, (g.nodes a).commit = some r → g.Armed r.attempt
  lates : ∀ e ∈ g.lates, e.message.commits = true → g.Armed e.attempt
  bounded : ∀ x i, (x, i) ∈ g.consents → i < g.attempts.length
  exclusive : Exclusive g.attempts g.consents

/-! ## Agreement -/

/-- What was committed before the run: one configuration a group, with a majority quorum. -/
structure Founding (founding : List (Addr × Config)) : Prop where
  same : ∀ x C y D, (x, C) ∈ founding → (y, D) ∈ founding → C.group = D.group → C = D
  majority : ∀ x C, (x, C) ∈ founding → C.members.card < 2 * C.quorum

section

variable {founding : List (Addr × Config)} {g g' : Net}

variable {x a : Addr} {i : Nat} {t : Attempt} {e : Envelope} {fate : Fate} {n : Node}

section

variable (h : g.Safe founding) {C : Config}

include h

theorem Safe.majority (hf : Founding founding)
    (hC : (x, C) ∈ g.history) : C.members.card < 2 * C.quorum := by
  rcases h.committed x C hC with hC | ⟨i, t, ht, -, rfl⟩
  · exact hf.majority x C hC
  · exact (h.attempts i t ht).majority

/-- Every group that has committed something has a founding configuration, the earliest one. -/
theorem Safe.founded (hC : (x, C) ∈ g.history) :
    ∃ y F, (y, F) ∈ founding ∧ F.group = C.group ∧ F.epoch ≤ C.epoch := by
  induction he : C.epoch using Nat.strong_induction_on generalizing x C with
  | _ e ih =>
    subst he
    rcases h.committed x C hC with hC | ⟨i, t, ht, -, rfl⟩
    · exact ⟨x, C, hC, rfl, le_rfl⟩
    · obtain ⟨y, F, hF, hgroup, hle⟩ := ih _ (Nat.lt_succ_self _) (h.attempts i t ht).old rfl
      exact ⟨y, F, hF, hgroup, hle.trans (Nat.le_succ _)⟩

theorem Safe.armed_after (hf : Founding founding)
    (ht : g.attempts[i]? = some t) (hC : (x, C) ∈ founding)
    (hgroup : C.group = t.group) : C.epoch < t.epoch := by
  obtain ⟨y, F, hF, hFgroup, hle⟩ := h.founded (h.attempts i t ht).old
  have hsame : F = C := hf.same y F x C hF hC (hFgroup.trans hgroup.symm)
  exact hsame ▸ Nat.lt_succ_of_le hle

/-- Two decisions from one configuration are the same: their quorums have a node in common. -/
theorem Safe.armed_same (hf : Founding founding) {j : Nat} {u : Attempt}
    (ht : g.attempts[i]? = some t) (hu : g.attempts[j]? = some u) (hta : t.stage = .armed)
    (hua : u.stage = .armed) (hgroup : t.group = u.group) (hepoch : t.epoch = u.epoch)
    (hold : t.oldConfig = u.oldConfig) : t.config = u.config := by
  have hst := h.attempts i t ht
  have hsu := h.attempts j u hu
  have hmajority := h.majority hf hst.old
  have hmembers : t.oldMembers.toFinset = u.oldMembers.toFinset := congrArg Config.members hold
  have hquorum : t.oldQuorum = u.oldQuorum := congrArg Config.quorum hold
  have hcard : ∀ {k : Nat} {v : Attempt}, v.Sound g.history g.consents k → v.stage = .armed →
      v.oldQuorum ≤ v.counted.toFinset.card := by
    intro k v hv hva
    rw [toFinset_card_of_nodup hv.counted_nodup, v.counted_length]
    exact hv.decided hva
  have hsub : ∀ {k : Nat} {v : Attempt}, v.Sound g.history g.consents k →
      v.counted.toFinset ⊆ v.oldMembers.toFinset := fun hv x hx =>
    mem_toFinset.2 (hv.counted_old x (mem_toFinset.1 hx))
  have ht' := hcard hst hta
  have hu' := hcard hsu hua
  obtain ⟨y, hy⟩ := Finset.inter_nonempty_of_card_lt_card_add_card (hsub hst)
    (hmembers ▸ hsub hsu) (by
      have : t.oldMembers.toFinset.card < 2 * t.oldQuorum := hmajority
      omega)
  obtain ⟨hyt, hyu⟩ := Finset.mem_inter.1 hy
  refine h.exclusive y i j t u (hst.counted_consented y (mem_toFinset.1 hyt))
    (hsu.counted_consented y (mem_toFinset.1 hyu)) ht hu ?_ ?_ hgroup hepoch
  · simp [Attempt.live, hta]
  · simp [Attempt.live, hua]

theorem Safe.agreed (hf : Founding founding) : g.Agreed := by
  intro x C y D hC hD hgroup hepoch
  -- by induction on the epoch: the quorums of an epoch are those of the one before
  induction he : C.epoch using Nat.strong_induction_on generalizing x C y D with
  | _ e ih =>
    subst he
    rcases h.committed x C hC with hC | ⟨i, t, ht, hta, rfl⟩
    · rcases h.committed y D hD with hD | ⟨j, u, hu, -, rfl⟩
      · exact hf.same x C y D hC hD hgroup
      · exact absurd hepoch (h.armed_after hf hu hC hgroup).ne
    · rcases h.committed y D hD with hD | ⟨j, u, hu, hua, rfl⟩
      · exact absurd hepoch.symm (h.armed_after hf ht hD hgroup.symm).ne
      · have hold := ih _ (Nat.lt_succ_self _) _ _ _ _ (h.attempts i t ht).old
          (h.attempts j u hu).old hgroup (Nat.succ.inj hepoch) rfl
        exact h.armed_same hf ht hu hta hua hgroup hepoch hold

end

/-! ## Steps -/

theorem Safe.change (h : g.Safe founding) {history : List (Addr × Config)}
    (hd : n.Distinct x) (hrecord : ∀ r, n.commit = some r → g.Armed r.attempt)
    (hsub : g.history ⊆ history) (hnew : ∀ y C, (y, C) ∈ history → (y, C) ∈ g.history ∨
      (y = x ∧ ∃ (i : Nat) (t : Attempt), g.attempts[i]? = some t ∧ t.stage = .armed ∧
        t.config = C))
    (hcurrent : ∀ C, (x, C) ∈ history → (x, n.config x) ∈ history) :
    Safe founding { g.set x n with history := history } := by
  have hset : ∀ {P : Addr → Node → Prop}, P x n → (∀ y, y ≠ x → P y (g.nodes y)) →
      ∀ y, P y ((g.set x n).nodes y) :=
    fun hx hy => (Function.forall_update_iff g.nodes _).2 ⟨hx, hy⟩
  refine { h with
    distinct := hset hd fun y _ => h.distinct y
    kept := fun c hc => hsub (h.kept hc)
    committed := fun y C hC => ?_
    current := hset (P := fun y n => ∀ C, (y, C) ∈ history → (y, n.config y) ∈ history) hcurrent
      fun y hy C hC =>
      hsub (h.current y C ((hnew y C hC).resolve_right fun hnew => hy hnew.1))
    attempts := fun i t ht => (h.attempts i t ht).mono hsub (Subset.refl _)
    records := hset (P := fun _ n => ∀ r, n.commit = some r → g.Armed r.attempt) hrecord
      fun y _ => h.records y }
  rcases hnew y C hC with hC | ⟨-, harmed⟩
  · exact h.committed y C hC
  · exact .inr harmed

theorem Safe.set (h : g.Safe founding) (hd : n.Distinct x)
    (hconfig : n.config x = (g.nodes x).config x)
    (hrecord : ∀ r, n.commit = some r → g.Armed r.attempt) : (g.set x n).Safe founding :=
  h.change hd hrecord (Subset.refl _) (fun _ _ hC => .inl hC)
    fun C hC => hconfig ▸ h.current x C hC

theorem Safe.record (h : g.Safe founding) (hd : n.Distinct x)
    (hcommit : n.commit = (g.nodes x).commit) (harmed : ∃ (i : Nat) (t : Attempt),
      g.attempts[i]? = some t ∧ t.stage = .armed ∧ t.config = n.config x) :
    Safe founding { g.set x n with history := (x, n.config x) :: g.history } := by
  refine h.change hd (fun r hr => h.records x r (hcommit ▸ hr)) (subset_cons_self _ _)
    (fun y C hC => ?_) fun _ _ => mem_cons_self ..
  rcases mem_cons.1 hC with heq | hC
  · cases heq
    exact .inr ⟨rfl, harmed⟩
  · exact .inl hC

variable {attempts : List Attempt}

theorem Exclusive.cons {consents : List (Addr × Nat)}
    (h : Exclusive attempts consents) (ht : attempts[i]? = some t)
    (hfree : ∀ j u, (x, j) ∈ consents → attempts[j]? = some u → u.live = true →
      u.group = t.group → u.epoch = t.epoch → u.config = t.config) :
    Exclusive attempts ((x, i) :: consents) := by
  intro y j k u v hj hk hu hv hul hvl hg he
  rcases mem_cons.1 hj with heq | hj
  · cases heq
    rw [show u = t from Option.some.inj (hu.symm.trans ht)] at hg he ⊢
    rcases mem_cons.1 hk with heq' | hk
    · cases heq'
      exact congrArg _ (Option.some.inj (ht.symm.trans hv))
    · exact (hfree k v hk hv hvl hg.symm he.symm).symm
  · rcases mem_cons.1 hk with heq' | hk
    · cases heq'
      rw [show v = t from Option.some.inj (hv.symm.trans ht)] at hg he ⊢
      exact hfree j u hj hu hul hg he
    · exact h y j k u v hj hk hu hv hul hvl hg he

theorem Safe.consent (h : g.Safe founding) (ht : g.attempts[i]? = some t)
    (hfree : g.Free x t.config) : Safe founding { g with consents := (x, i) :: g.consents } := by
  refine { h with
    attempts := fun j u hu =>
      (h.attempts j u hu).mono (List.Subset.refl _) (subset_cons_self _ _)
    bounded := fun y j hj => ?_
    exclusive := h.exclusive.cons ht fun j u hj hu => hfree (x, j) hj rfl u hu }
  rcases mem_cons.1 hj with heq | hj
  · cases heq
    exact (List.getElem?_eq_some_iff.1 ht).1
  · exact h.bounded y j hj

theorem running_iff : g.running i = true ↔ ∃ t, g.attempts[i]? = some t ∧ t.running = true := by
  unfold running
  cases g.attempts[i]? <;> simp

theorem deliver_eq (g : Net) (e : Envelope)
    (h : (g.nodes e.target).serve e.target e.message = (yes, n)) :
    g.deliver e = (yes, { g.set e.target n with
      consents := if yes && e.message.consents && g.running e.attempt then
        (e.target, e.attempt) :: g.consents else g.consents
      history := if yes && e.message.commits then
        (e.target, n.config e.target) :: g.history else g.history }) := by
  unfold deliver
  rw [h]

theorem InOrder.free (h : g.InOrder e) (hc : e.message.consents = true)
    (hyes : ((g.nodes e.target).serve e.target e.message).1 = true)
    (ht : g.attempts[e.attempt]? = some t) (hrun : t.running = true) :
    g.Free e.target t.config := by
  obtain ⟨x, m, i⟩ := e
  cases m <;> first | exact h hyes t ht hrun | cases hc

theorem Safe.deliver (h : g.Safe founding) (hin : g.InOrder e) (hcommit : e.message.commits = true →
      g.Armed e.attempt) : (g.deliver e).2.Safe founding := by
  have hserved := Node.serve_served e.target (g.nodes e.target) e.message
  cases hs : (g.nodes e.target).serve e.target e.message with
  | mk yes n =>
  rw [hs] at hserved
  rw [deliver_eq g e hs]
  dsimp only at hserved ⊢
  have hdistinct := hserved.distinct (h.distinct e.target)
  by_cases hc : (yes && e.message.commits) = true
  · obtain ⟨hyes, hm⟩ := Bool.and_eq_true_iff.1 hc
    obtain ⟨t, ht, harmed⟩ := hcommit hm
    obtain ⟨group, epoch, hmsg⟩ : ∃ group epoch, e.message = .commit group epoch := by
      cases hmsg : e.message <;> rw [hmsg] at hm <;> first | exact ⟨_, _, rfl⟩ | cases hm
    obtain ⟨p, hp, hconfig⟩ := hserved.committed group epoch hmsg hyes
    have hpt : p.config e.target group = t.config := by
      unfold InOrder at hin
      rw [hmsg] at hin
      exact hin p hp t ht
    have hno : (yes && e.message.consents && g.running e.attempt) = false := by
      rw [hmsg]
      simp [Message.consents]
    simp only [hc, hno, if_true, Bool.false_eq_true, if_false]
    exact h.record hdistinct hserved.commit ⟨_, t, ht, harmed, (hconfig.trans hpt).symm⟩
  · have hconfig := hserved.config.resolve_right fun hboth => hc (by simp [hboth.1, hboth.2])
    have hset := h.set hdistinct hconfig fun r hr =>
      h.records e.target r (hserved.commit ▸ hr)
    split
    · rename_i hconsent
      simp only [Bool.and_eq_true] at hconsent
      obtain ⟨⟨hyes, hm⟩, hrunning⟩ := hconsent
      obtain ⟨t, ht, hrun⟩ := running_iff.1 hrunning
      exact hset.consent ht (hin.free hm (by rw [hs]; exact hyes) ht hrun)
    · exact hset

theorem Safe.send (h : g.Safe founding) (hin : fate ≠ .late → g.InOrder e)
    (hcommit : e.message.commits = true → g.Armed e.attempt) :
    (g.send e fate).2.Safe founding := by
  cases fate with
  | answered => exact h.deliver (hin (by decide)) hcommit
  | unanswered => exact h.deliver (hin (by decide)) hcommit
  | late =>
    refine { h with lates := fun e' he' => ?_ }
    rcases mem_cons.1 he' with rfl | he'
    · exact hcommit
    · exact h.lates e' he'

theorem send_consented (hyes : (g.send e fate).1 = true) (hm : e.message.consents = true)
    (hrun : g.running e.attempt = true) : (e.target, e.attempt) ∈ (g.send e fate).2.consents := by
  cases fate with
  | answered =>
    cases hs : (g.nodes e.target).serve e.target e.message with
    | mk yes n =>
    simp only [send, deliver_eq g e hs] at hyes ⊢
    rw [if_pos (by simp [hyes, hm, hrun])]
    exact mem_cons_self ..
  | unanswered => cases hyes
  | late => cases hyes

/-- The coordinations move on: none changes its configuration, none comes back after it was given
up, none is undone after it was decided for. -/
theorem Safe.setAttempts (h : g.Safe founding) (hlength : attempts.length = g.attempts.length)
    (hback : ∀ (i : Nat) (t' : Attempt), attempts[i]? = some t' → ∃ t, g.attempts[i]? = some t ∧
      t'.config = t.config ∧ (t'.live = true → t.live = true) ∧ t'.Sound g.history g.consents i)
    (hforth : ∀ (i : Nat) (t : Attempt), g.attempts[i]? = some t → t.stage = .armed →
      attempts[i]? = some t) :
    Safe founding { g with attempts := attempts } := by
  have harmed : ∀ {i : Nat}, g.Armed i → ∃ t, attempts[i]? = some t ∧ t.stage = .armed :=
    fun ⟨t, ht, ha⟩ => ⟨t, hforth _ t ht ha, ha⟩
  refine { h with
    committed := fun x C hC => ?_
    attempts := fun i t ht => (hback i t ht).choose_spec.2.2.2
    records := fun a r hr => harmed (h.records a r hr)
    lates := fun e he hm => harmed (h.lates e he hm)
    bounded := fun x i hi => hlength ▸ h.bounded x i hi
    exclusive := fun x i j t u hi hj ht hu htl hul hg hepoch => ?_ }
  · rcases h.committed x C hC with hC | ⟨i, t, ht, ha, hC⟩
    · exact .inl hC
    · exact .inr ⟨i, t, hforth i t ht ha, ha, hC⟩
  · obtain ⟨t₀, ht₀, hct, hlt, -⟩ := hback i t ht
    obtain ⟨u₀, hu₀, hcu, hlu, -⟩ := hback j u hu
    have hg' : t₀.group = u₀.group := by
      have ht' : t.group = t₀.group := congrArg Config.group hct
      have hu' : u.group = u₀.group := congrArg Config.group hcu
      rw [← ht', ← hu', hg]
    have he' : t₀.epoch = u₀.epoch := by
      have ht' : t.epoch = t₀.epoch := congrArg Config.epoch hct
      have hu' : u.epoch = u₀.epoch := congrArg Config.epoch hcu
      rw [← ht', ← hu', hepoch]
    rw [hct, hcu]
    exact h.exclusive x i j t₀ u₀ hi hj ht₀ hu₀ (hlt htl) (hlu hul) hg' he'

theorem Safe.setAttempt (h : g.Safe founding) {t' : Attempt} (ht : g.attempts[i]? = some t)
    (hconfig : t'.config = t.config) (hlive : t'.live = true → t.live = true)
    (harmed : t.stage ≠ .armed) (hsound : t'.Sound g.history g.consents i) :
    (g.setAttempt i t').Safe founding := by
  refine h.setAttempts (length_set ..) (fun j u hu => ?_) (fun j u hu hua => ?_)
  · rw [getElem?_set] at hu
    split at hu
    · rename_i hij
      subst hij
      split at hu
      · cases hu
        exact ⟨t, ht, hconfig, hlive, hsound⟩
      · cases hu
    · exact ⟨u, hu, rfl, id, h.attempts j u hu⟩
  · have hij : i ≠ j := by
      rintro rfl
      rw [Option.some.inj (ht.symm.trans hu)] at harmed
      exact harmed hua
    rw [getElem?_set, if_neg hij]
    exact hu

/-! ### Events -/

theorem ask_envelope (ht : g.attempts[i]? = some t) (he : g.envelope (.ask i fate) = some e) :
    e.attempt = i ∧ t.todo = e.target :: t.todo.tail ∧ e.message.commits = false ∧
      (t.running = true → e.message.consents = true) ∧ t.stage ≠ .armed := by
  simp only [envelope, ht, Option.bind_eq_bind, Option.bind_some, Option.bind_eq_some_iff] at he
  obtain ⟨m, hm, x, hx, he⟩ := he
  cases he
  refine ⟨rfl, ?_, ?_⟩
  · cases htodo : t.todo with
    | nil =>
      rw [htodo] at hx
      cases hx
    | cons y ys =>
      rw [htodo] at hx
      cases hx
      rfl
  · unfold Attempt.message at hm
    unfold Attempt.running
    cases hstage : t.stage <;> rw [hstage] at hm <;> cases hm <;> simp [Message.commits,
      Message.consents]

theorem Safe.ask (h : g.Safe founding) (hcare : g.Careful (.ask i fate))
    (hs : g.step (.ask i fate) = some g') : g'.Safe founding := by
  simp only [step] at hs
  split at hs
  swap
  · cases hs
  rename_i t e ht he
  cases hs
  obtain ⟨hi, htodo, hcommits, hconsents, harmed⟩ := ask_envelope ht he
  have h' : (g.send e fate).2.Safe founding :=
    h.send (fun hf => hcare (by simpa [Event.serves] using hf) e he)
      (fun hc => by rw [hcommits] at hc; cases hc)
  have ht' : (g.send e fate).2.attempts[i]? = some t := by
    cases fate <;> exact ht
  refine h'.setAttempt ht' ?_ ?_ harmed ((h'.attempts i t ht').asked htodo fun hyes hrun => ?_)
  · unfold Attempt.asked
    split <;> rfl
  · unfold Attempt.asked
    split <;> exact id
  · subst hi
    exact send_consented hyes (hconsents hrun) (running_iff.2 ⟨t, ht, hrun⟩)

theorem Safe.conclude (h : g.Safe founding) (hs : g.step (.conclude i) = some g') :
    g'.Safe founding := by
  simp only [step] at hs
  split at hs
  · cases hs
  rename_i t ht
  split at hs
  · cases hs
  rename_i hguard
  have hset := h.setAttempt ht t.conclude_config Attempt.conclude_live
    (fun harmed => hguard (.inr (.inl harmed))) (h.attempts i t ht).conclude
  have hi : i < g.attempts.length := (List.getElem?_eq_some_iff.1 ht).1
  have ht' : (g.setAttempt i t.conclude).attempts[i]? = some t.conclude := by
    simp [Net.setAttempt, hi]
  split at hs
  · rename_i harmed
    cases hs
    refine hset.set ⟨(h.distinct t.coordinator).peers, (h.distinct t.coordinator).joint⟩ rfl
      fun r hr => ?_
    cases hr
    exact ⟨_, ht', harmed⟩
  · cases hs
    have hserved := Node.serve_served t.coordinator (g.nodes t.coordinator) (.abort t.group t.epoch)
    refine hset.set (hserved.distinct (h.distinct t.coordinator))
      (hserved.config.resolve_right fun hboth => (nomatch hboth.2)) fun r hr => ?_
    exact hset.records t.coordinator r (hserved.commit ▸ hr)
  · cases hs
    exact hset

theorem Safe.crash (h : g.Safe founding) (hs : g.step (.crash a) = some g') : g'.Safe founding := by
  cases hs
  refine h.setAttempts (length_map _) (fun i t' ht' => ?_) (fun i t ht harmed => ?_)
  · rw [getElem?_map] at ht'
    obtain ⟨t, ht, rfl⟩ := Option.map_eq_some_iff.1 ht'
    refine ⟨t, ht, ?_⟩
    split
    · exact ⟨rfl, nofun, (h.attempts i t ht).settle .dropped t.todo nofun nofun nofun⟩
    · exact ⟨rfl, id, h.attempts i t ht⟩
  · rw [getElem?_map, ht, Option.map_some, if_neg fun hcrash => hcrash.2 harmed]

theorem record_attempt {ev : Event} {r : CommitRecord} (hr : (g.nodes a).commit = some r)
    (hev : ev = .commitLocal a ∨ ∃ x m fate, ev = .recover a x m fate)
    (he : g.envelope ev = some e) :
    e.attempt = r.attempt := by
  rcases hev with rfl | ⟨x, m, fate, rfl⟩ <;>
    simp only [envelope, hr, Option.bind_eq_bind, Option.bind_some] at he <;> cases he <;> rfl

theorem Safe.recover (h : g.Safe founding) {m : RecoveryMessage}
    (hcare : g.Careful (.recover a x m fate)) (hs : g.step (.recover a x m fate) = some g') :
    g'.Safe founding := by
  simp only [step] at hs
  split at hs
  swap
  · cases hs
  rename_i r e hr he
  split at hs
  · cases hs
    have hattempt := record_attempt hr (.inr ⟨x, m, fate, rfl⟩) he
    exact h.send (fun hf => hcare (by simpa [Event.serves] using hf) e he)
      fun _ => hattempt ▸ h.records a r hr
  · cases hs

theorem Safe.commitLocal (h : g.Safe founding) (hcare : g.Careful (.commitLocal a))
    (hs : g.step (.commitLocal a) = some g') : g'.Safe founding := by
  simp only [step] at hs
  split at hs
  swap
  · cases hs
  rename_i r e hr he
  split at hs
  · cases hs
    have hattempt := record_attempt hr (.inl rfl) he
    exact h.deliver (hcare rfl e he) fun _ => hattempt ▸ h.records a r hr
  · cases hs

theorem Safe.late (h : g.Safe founding) {k : Nat} (hcare : g.Careful (.late k))
    (hs : g.step (.late k) = some g') : g'.Safe founding := by
  simp only [step] at hs
  split at hs
  · rename_i e he
    cases hs
    have hmem : e ∈ g.lates := mem_of_getElem? he
    have h' := h.deliver (hcare rfl e he) (h.lates e hmem)
    exact { h' with
      lates := fun e' he' => h.lates e' (mem_of_mem_eraseIdx he') }
  · cases hs

theorem coordinateFailoverMembershipChange_ok {n' : Node}
    (h : coordinateFailoverMembershipChange a n newEpoch members quorum = .ok (t, n')) :
    newEpoch = n.epoch + 1 ∧ members.Nodup ∧ a ∈ members ∧ members.length < 2 * quorum ∧
      t = ⟨a, n.group, n.epoch, a :: n.peers, n.quorum, members, quorum, .preparing,
        members.filter fun x => x ≠ a, [], []⟩ ∧
      n' = { n with joint := some ⟨newEpoch, members.filter fun x => x ≠ a, quorum⟩ } := by
  unfold coordinateFailoverMembershipChange at h
  split at h
  · cases h
  rename_i hcalm
  split at h
  · cases h
  split at h
  · cases h
  rename_i hepoch
  split at h
  · cases h
  split at h
  · cases h
  obtain ⟨peers, hd, h⟩ := bind_eq_ok h
  obtain ⟨hnodup, ha, rfl⟩ := deriveFailoverPeersForMember_ok hd
  obtain ⟨⟨⟩, hv, h⟩ := bind_eq_ok h
  have hmajority := validateFailoverPeerSet_ok hv
  obtain ⟨⟨reply, n₁⟩, hp, h⟩ := bind_eq_ok h
  dsimp only at h
  split at h
  · rename_i haccepted
    cases h
    have hlength : (members.filter fun x => x ≠ a).length + 1 = members.length := by
      have herase : members.filter (fun x => x ≠ a) = members.erase a := by
        rw [hnodup.erase_eq_filter]
        exact filter_congr fun x _ => by by_cases hx : x = a <;> simp [hx]
      rw [herase, length_erase_of_mem ha]
      exact Nat.sub_add_cancel (length_pos_of_mem ha)
    refine ⟨by simpa using hepoch, hnodup, ha, by omega, rfl, ?_⟩
    rcases prepareFailoverMembershipMembers_ok hp with ⟨-, hjoint⟩ | ⟨-, -, rfl⟩
    · exact absurd (.inl (Option.isSome_iff_ne_none.2 (hjoint haccepted))) hcalm
    · rfl
  · cases h

theorem Safe.propose (h : g.Safe founding)
    (hsound : t.Sound g.history ((t.coordinator, g.attempts.length) :: g.consents)
      g.attempts.length) (hfree : g.Free t.coordinator t.config) : Safe founding { g with
      attempts := g.attempts ++ [t]
      consents := (t.coordinator, g.attempts.length) :: g.consents } := by
  have hforth : ∀ {i : Nat} {u : Attempt}, g.attempts[i]? = some u →
      (g.attempts ++ [t])[i]? = some u := by
    intro i u hu
    rw [List.getElem?_append_left (List.getElem?_eq_some_iff.1 hu).1]
    exact hu
  have hback : ∀ {i : Nat} {u : Attempt}, (g.attempts ++ [t])[i]? = some u →
      g.attempts[i]? = some u ∨ (i = g.attempts.length ∧ u = t) := by
    intro i u hu
    rw [getElem?_append] at hu
    split at hu
    · exact .inl hu
    · obtain ⟨hi, rfl⟩ := List.getElem?_eq_some_iff.1 hu
      have hi' : i - g.attempts.length = 0 := by simpa using hi
      exact .inr ⟨by omega, by simp [hi']⟩
  have harmed : ∀ {i : Nat}, g.Armed i → ∃ u, (g.attempts ++ [t])[i]? = some u ∧
      u.stage = .armed := fun ⟨u, hu, ha⟩ => ⟨u, hforth hu, ha⟩
  -- the attempts the node has consented to before
  have hold : ∀ {i : Nat} {x : Addr} {u : Attempt}, (x, i) ∈ g.consents →
      (g.attempts ++ [t])[i]? = some u → g.attempts[i]? = some u := by
    intro i x u hi hu
    rcases hback hu with hu | ⟨rfl, -⟩
    · exact hu
    · exact absurd (h.bounded x _ hi) (Nat.lt_irrefl _)
  have hexclusive : Exclusive (g.attempts ++ [t]) g.consents :=
    fun x i j u v hi hj hu hv => h.exclusive x i j u v hi hj (hold hi hu) (hold hj hv)
  refine { h with
    committed := fun x C hC => ?_
    attempts := fun i u hu => ?_
    records := fun a r hr => harmed (h.records a r hr)
    lates := fun e he hm => harmed (h.lates e he hm)
    bounded := fun x i hi => ?_
    exclusive := hexclusive.cons (by simp) fun j u hj hu => hfree (_, j) hj rfl u (hold hj hu) }
  · rcases h.committed x C hC with hC | ⟨i, u, hu, ha, hC⟩
    · exact .inl hC
    · exact .inr ⟨i, u, hforth hu, ha, hC⟩
  · rcases hback hu with hu | ⟨rfl, rfl⟩
    · exact (h.attempts i u hu).mono (List.Subset.refl _) (subset_cons_self _ _)
    · exact hsound
  · rw [length_append]
    rcases mem_cons.1 hi with heq | hi
    · cases heq
      exact Nat.lt_succ_self _
    · exact Nat.lt_succ_of_lt (h.bounded x i hi)

theorem Safe.coordinate (h : g.Safe founding)
    (hcare : g.Careful (.coordinate a newEpoch members quorum))
    (hs : g.step (.coordinate a newEpoch members quorum) = some g') : g'.Safe founding := by
  simp only [step] at hs
  split at hs
  · cases hs
  rename_i t n hok
  cases hs
  obtain ⟨hcommitted, hfree⟩ := hcare
  obtain ⟨rfl, hnodup, ha, hmajority, rfl, rfl⟩ := coordinateFailoverMembershipChange_ok hok
  have hpeers := (h.distinct a).peers
  have hset := h.set (x := a) (n := { g.nodes a with
      joint := some ⟨(g.nodes a).epoch + 1, members.filter fun x => x ≠ a, quorum⟩ })
    ⟨hpeers, fun p hp => by
      cases hp
      exact nodup_cons.2 ⟨by simp, hnodup.filter _⟩⟩ rfl (fun r hr => h.records a r hr)
  refine hset.propose ?_ hfree
  exact {
    old := by
      have heq : (g.nodes a).config a = ⟨(g.nodes a).group, (g.nodes a).epoch,
          (a :: (g.nodes a).peers).toFinset, (g.nodes a).quorum⟩ := by
        rw [toFinset_cons]
        rfl
      rw [heq] at hcommitted
      exact hcommitted
    majority := by
      rw [toFinset_card_of_nodup hnodup]
      exact hmajority
    oldNodup := hpeers
    coordinatorOld := mem_cons_self ..
    coordinatorNew := ha
    prepareNodup := nodup_cons.2 ⟨by simp [Attempt.toPrepare], hnodup.filter _⟩
    prepareNew := fun x hx => (mem_filter.1 hx).1
    unretired := fun _ => rfl
    retireNodup := nodup_nil
    retireRemoved := nofun
    consented := fun x hx => by
      rw [mem_singleton.1 hx]
      exact mem_cons_self ..
    decided := nofun }

theorem Safe.step (g : Net) (e : Event) (g' : Net) (h : g.Safe founding) (hcare : g.Careful e)
    (hs : g.step e = some g') : g'.Safe founding := by
  cases e with
  | role a master =>
    cases hs
    exact h.set ⟨(h.distinct a).peers, (h.distinct a).joint⟩ rfl fun r hr => h.records a r hr
  | coordinate a newEpoch members quorum => exact h.coordinate hcare hs
  | ask i fate => exact h.ask hcare hs
  | conclude i => exact h.conclude hs
  | crash a => exact h.crash hs
  | recover a x m fate => exact h.recover hcare hs
  | commitLocal a => exact h.commitLocal hcare hs
  | clear a =>
    simp only [Net.step] at hs
    split at hs
    · split at hs
      · cases hs
        exact h.set ⟨(h.distinct a).peers, (h.distinct a).joint⟩ rfl nofun
      · cases hs
    · cases hs
  | late k => exact h.late hcare hs

theorem Started.safe (h : g.Started) : g.Safe g.history where
  distinct x := ⟨h.distinct x, fun p hp => by
    rw [(h.calm x).1] at hp
    cases hp⟩
  kept := Subset.refl _
  committed x C hC := .inl hC
  current x C hC := (h.members x C hC).symm ▸ hC
  attempts i t ht := by simp [h.attempts] at ht
  records a r hr := by simp [(h.calm a).2] at hr
  lates e he := by simp [h.lates] at he
  bounded x i hi := by simp [h.consents] at hi
  exclusive x i j t u hi := by simp [h.consents] at hi

end

/-- In every run of careful events, nodes that have committed one epoch of a group have committed
the same members and quorum, and what a member has now is something it has committed. -/
theorem agreed_of_careful (g₀ g : Net) (events : List Event) (hstart : g₀.Started)
    (hcare : Along step Careful g₀ events) (hrun : run step g₀ events = some g) :
    g.Agreed ∧ ∀ x C, (x, C) ∈ g.history → (x, (g.nodes x).config x) ∈ g.history := by
  have hsafe := run_preserves (fun g e g' => @Safe.step g₀.history g e g') hstart.safe hcare hrun
  exact ⟨hsafe.agreed ⟨hstart.founded, hstart.majority⟩, hsafe.current⟩

end Net

/-! ## Three members -/

namespace ThreeMembers

def a : Addr := [97, 58, 49]
def b : Addr := [98, 58, 49]
def c : Addr := [99, 58, 49]

def group : Bytes := [103]

def member (peers : List Addr) : Node := ⟨group, 1, peers, 2, none, none, none, none, true⟩

def founded : Config := ⟨group, 1, {a, b, c}, 2⟩

def started : Net where
  nodes x := if x = a then member [b, c] else if x = b then member [a, c]
    else if x = c then member [a, b] else ⟨[], 0, [], 0, none, none, none, none, false⟩
  attempts := []
  lates := []
  consents := []
  history := [(a, founded), (b, founded), (c, founded)]

theorem started_ok : started.Started where
  distinct x := by
    unfold started
    dsimp only
    split
    · rename_i hx
      subst hx
      decide
    split
    · rename_i hx
      subst hx
      decide
    split
    · rename_i hx
      subst hx
      decide
    · exact nodup_singleton x
  calm x := by
    unfold started
    dsimp only
    (repeat' split) <;> exact ⟨rfl, rfl⟩
  members := by
    intro x C hC
    have hall : ∀ p ∈ started.history, (started.nodes p.1).config p.1 = p.2 := by decide
    exact hall (x, C) hC
  founded := by
    intro x C y D hC hD _
    have hall : ∀ p ∈ started.history, p.2 = founded := by decide
    exact (hall (x, C) hC).trans (hall (y, D) hD).symm
  majority := by
    intro x C hC
    have hall : ∀ p ∈ started.history, p.2.members.card < 2 * p.2.quorum := by decide
    exact hall (x, C) hC
  attempts := rfl
  consents := rfl
  lates := rfl

/-- Node `a` removes `c`: `b` prepares, `c` consents to retire and retires, both commit. -/
def removal : List Event :=
  [.coordinate a 2 [a, b] 2, .ask 0 .answered, .conclude 0, .ask 0 .answered, .conclude 0,
    .recover a c .retire .answered, .commitLocal a, .recover a b .commit .answered, .clear a]

/-- Node `a` proposes itself alone, `b` proposes itself alone, and `c` consents to retire for
both. -/
def twoProposals : List Event :=
  [.coordinate a 2 [a] 1, .coordinate b 2 [b] 1, .conclude 0, .conclude 1,
    .ask 0 .late, .ask 0 .answered, .ask 1 .late, .ask 1 .answered, .conclude 0, .conclude 1,
    .recover a c .retire .answered, .commitLocal a, .commitLocal b]

end ThreeMembers

namespace Net

open ThreeMembers in
theorem agreed_removal : ∃ g, run step started removal = some g ∧
    (a, ⟨group, 2, {a, b}, 2⟩) ∈ g.history ∧ (b, ⟨group, 2, {a, b}, 2⟩) ∈ g.history ∧
      g.Agreed ∧ ∀ x C, (x, C) ∈ g.history → (x, (g.nodes x).config x) ∈ g.history := by
  refine ⟨_, rfl, by decide, by decide, ?_⟩
  exact agreed_of_careful started _ removal started_ok (by decide) rfl

open ThreeMembers in
/-- Both have committed epoch 2, each alone. -/
theorem disagreed_twoProposals : started.Started ∧ ∃ g, run step started twoProposals = some g ∧
    (a, ⟨group, 2, {a}, 1⟩) ∈ g.history ∧ (b, ⟨group, 2, {b}, 1⟩) ∈ g.history ∧ ¬ g.Agreed := by
  refine ⟨started_ok, _, rfl, by decide, by decide, fun hagreed => ?_⟩
  have hsame := hagreed a ⟨group, 2, {a}, 1⟩ b ⟨group, 2, {b}, 1⟩ (by decide) (by decide) rfl rfl
  exact absurd hsame (by decide)

end Net

end Membership
end Failover
end SnugKV
