import SnugKV.Failover.Election

/-!
# Leases — when a leader may take writes

A leader asks itself and its peers for a lease of three seconds and, with a quorum of them, takes
writes until a quarter of a second before the first of them ends. A node grants one leader at a
time: another leader of the same term waits until the lease has run out. A higher term does not
wait.

* a round asks the peers one after the other; a request that was given up may still be served;
* a primary takes the next term without an election, a replica wins one first;
* the replication links, the roles and the clock change at any time.

`Careful` is the condition under which two leaders never take writes together: a request of a
higher term by another leader finds the lease it replaces run out.

Terms are natural numbers where the source has `uint64`: a term is one more than a term before it
and does not wrap here. The leases that `verifyFailoverLeaderQuorum` asks for in the name of the
leader a node is told to yield to are no events.
-/

namespace SnugKV
namespace Failover

open Lib List

/-! ## One node -/

inductive Role where
  | master
  | replica
  deriving DecidableEq, Repr

/-- What a node has granted: `failoverLeaseTerm`, `failoverLeaseHolder` and
`failoverLeaseUntil`, in milliseconds of the common clock. -/
structure Lease where
  term : Nat
  holder : Bytes
  deadline : Option Nat
  deriving DecidableEq, Repr

/-- The time is before a deadline that is set. -/
def beforeDeadline (now : Nat) (deadline : Option Nat) : Bool :=
  deadline.any fun d => decide (now < d)

/-- `failoverLeader…`: what a node knows of its own leadership. -/
structure Leader where
  active : Bool
  term : Nat
  lineage : Bytes
  leaderID : Bytes
  deadline : Option Nat
  fenced : Bool
  deriving DecidableEq, Repr

/-- `deactivateFailoverLeader` -/
def Leader.inactive : Leader := ⟨false, 0, [], [], none, false⟩

structure LeaseRequest where
  lineage : Bytes
  term : Nat
  leaderID : Bytes
  deriving DecidableEq, Repr

/-- `failoverLeaseReply` -/
structure LeaseReply where
  term : Nat
  granted : Bool
  expires : Option Nat
  deriving DecidableEq, Repr

/-- Why a round was begun: `establishPrimaryQuorumLease`, `maintainFailoverLeaderLease` with the
deadline it found, or an election that was won. -/
inductive Purpose where
  | establish
  | maintain (expiresAt : Option Nat)
  | elected
  deriving DecidableEq, Repr

/-- A run of `acquireFailoverLeaseRound` that has not returned. -/
structure Round (M : Type) where
  purpose : Purpose
  start : Nat
  request : LeaseRequest
  todo : List M
  /-- The peer that is being asked, and its answer once it has served the request. -/
  pending : Option (M × Option LeaseReply)
  /-- The nodes whose leases were counted. -/
  leases : List M
  quorumReached : Bool
  deriving DecidableEq, Repr

structure Member (M : Type) where
  role : Role
  masterRunID : Bytes
  /-- The link to the master is down for longer than the failover timeout. -/
  masterDown : Bool
  vote : Vote
  lease : Lease
  leader : Leader
  /-- The time the maintenance loop last worked with. -/
  ticked : Nat
  round : Option (Round M)
  deriving DecidableEq, Repr

def leaseTTL : Nat := 3000

def leaseMargin : Nat := 250

variable {M : Type}

/-- The checks of `requestFailoverLease` before the lease itself is looked at. -/
def Member.admits (nodeID : Bytes) (n : Member M) (r : LeaseRequest) (ttl : Nat) : Bool :=
  let localLineage :=
    if n.masterRunID = [] ∧ n.role = .master then
      if n.leader.active ∧ n.leader.lineage ≠ [] then n.leader.lineage else nodeID
    else n.masterRunID
  let lineageMatches := localLineage != [] && localLineage == r.lineage
  let reparentedContinuation := n.role == .replica && n.masterRunID == r.leaderID &&
    n.lease.term == r.term && n.lease.holder == r.leaderID
  decide (n.vote.term ≤ r.term) && decide (0 < ttl) && decide (ttl ≤ 30000) &&
    r.leaderID != [] && (lineageMatches || reparentedContinuation)

/-- The lease after a request that was admitted, and the answer. -/
def Lease.request (l : Lease) (now : Nat) (r : LeaseRequest) (ttl : Nat) : LeaseReply × Lease :=
  if r.term < l.term then (⟨l.term, false, none⟩, l)
  else
    -- a higher term drops the lease it finds, however long it has to run
    let l := if l.term < r.term then ⟨r.term, [], none⟩ else l
    if beforeDeadline now l.deadline ∧ l.holder ≠ [] ∧ l.holder ≠ r.leaderID then
      (⟨l.term, false, l.deadline⟩, l)
    else (⟨l.term, true, some (now + ttl)⟩, ⟨l.term, r.leaderID, some (now + ttl)⟩)

def requestFailoverLease (nodeID : Bytes) (n : Member M) (now : Nat) (r : LeaseRequest)
    (ttl : Nat) : LeaseReply × Lease :=
  if n.admits nodeID r ttl then n.lease.request now r ttl
  else (⟨n.vote.term, false, none⟩, n.lease)

inductive FenceReason where
  | leaderLeaseInvalid
  | foreignLeaderLease
  deriving DecidableEq, Repr

/-- `failoverWriteFenceStatus`: why the writes are fenced, with the holder and the deadline of the
lease that decides. -/
structure FenceStatus where
  reason : Option FenceReason
  holder : Bytes
  deadline : Option Nat
  deriving DecidableEq, Repr

def failoverWriteFenceStatus (nodeID : Bytes) (n : Member M) (now : Nat) : FenceStatus :=
  if n.leader.active ∧ (n.leader.fenced ∨ ¬ beforeDeadline now n.leader.deadline) then
    ⟨some .leaderLeaseInvalid, n.leader.leaderID, n.leader.deadline⟩
  else if n.lease.holder = [] ∨ ¬ beforeDeadline now n.lease.deadline then
    ⟨none, n.lease.holder, n.lease.deadline⟩
  else if nodeID ≠ [] ∧ n.lease.holder ≠ nodeID then
    ⟨some .foreignLeaderLease, n.lease.holder, n.lease.deadline⟩
  else ⟨none, n.lease.holder, n.lease.deadline⟩

/-- `activateFailoverLeader` -/
def Leader.activate (term : Nat) (lineage leaderID : Bytes) (expiresAt : Option Nat)
    (clock : Nat) : Leader :=
  ⟨true, term, lineage, leaderID, expiresAt, !beforeDeadline clock expiresAt⟩

/-- `updateFailoverLeaderLease` -/
def Leader.updateLease (l : Leader) (expiresAt : Option Nat) (fenced : Bool) : Leader :=
  if l.active then { l with deadline := expiresAt, fenced := fenced } else l

/-- `autoFailoverDue` -/
def Member.autoFailoverDue (n : Member M) : Bool :=
  n.role == .replica && n.masterDown && n.masterRunID != []

/-- `promote` -/
def Member.promote (n : Member M) : Member M :=
  { n with role := .master, masterRunID := [], masterDown := false }

/-! ## Rounds -/

/-- The deadline of the leader: every request of a round counts from its start. -/
def Round.expiresAt (r : Round M) : Option Nat :=
  if r.leases = [] then none else some (r.start + (leaseTTL - leaseMargin))

def Round.count (r : Round M) (quorum : Nat) (p : M) (reply : LeaseReply) : Round M :=
  if r.request.term < reply.term then { r with pending := none, todo := [] }
  else
    let leases := if reply.granted then r.leases ++ [p] else r.leases
    if quorum ≤ leases.length then
      { r with pending := none, todo := [], leases := leases, quorumReached := true }
    else { r with pending := none, leases := leases }

/-- What the caller of the round does with its result. `persisted` is whether a promotion could
be written to disk. -/
def Member.finish (n : Member M) (nodeID : Bytes) (r : Round M) (clock : Nat) (persisted : Bool) :
    Member M :=
  let n := { n with round := none }
  match r.purpose with
  | .establish =>
    let expiresAt := if r.quorumReached then r.expiresAt else none
    { n with
      leader := .activate r.request.term r.request.lineage r.request.leaderID expiresAt clock }
  | .maintain expiresAt =>
    if r.quorumReached ∧ r.expiresAt ≠ none then
      { n with leader := n.leader.updateLease r.expiresAt false }
    else if ¬ beforeDeadline r.start expiresAt then
      { n with leader := n.leader.updateLease expiresAt true }
    else n
  | .elected =>
    if r.quorumReached ∧ n.autoFailoverDue ∧ persisted then
      { n.promote with
        leader := .activate r.request.term r.request.lineage nodeID r.expiresAt clock }
    else n

/-! ## The group -/

/-- A fixed membership with a majority quorum. Every node asks all the others. -/
structure FixedGroup (M : Type) [Fintype M] where
  nodeID : M → Bytes
  nodeID_injective : Function.Injective nodeID
  nodeID_ne_nil : ∀ m, nodeID m ≠ []
  peers : M → List M
  peers_nodup : ∀ m, (m :: peers m).Nodup
  quorum : Nat
  majority : Fintype.card M < 2 * quorum

structure LeaseGroup (M : Type) where
  members : M → Member M
  clock : Nat
  /-- Requests that were given up and may still be served, with the node they go to. -/
  strays : List (M × LeaseRequest)
  /-- Every vote granted so far. -/
  votes : List (Grant M)

inductive LeaseEvent (M : Type) where
  | tick (elapsed : Nat)
  /-- The link of a replica goes down for long enough, or comes up. -/
  | link (m : M) (down : Bool)
  /-- `startReplicaFollow`; `same` is whether the address is the one followed before. -/
  | follow (m : M) (same : Bool)
  /-- A full resync tells the run id of the master. -/
  | resync (m : M) (runID : Bytes)
  /-- `REPLICAOF NO ONE` -/
  | detach (m : M)
  | vote (m : M) (lineage : Bytes) (term : Nat) (candidate : Bytes) (ranks : Bool)
  | establish (m : M) (now : Nat)
  | maintain (m : M) (now : Nat)
  | elected (m : M) (now term : Nat)
  | ask (m : M)
  | serve (m : M)
  | answer (m : M)
  | skip (m : M)
  | stray (i : Nat)
  | finish (m : M) (persisted : Bool)

namespace LeaseGroup

variable [DecidableEq M]

def set (g : LeaseGroup M) (m : M) (n : Member M) : LeaseGroup M :=
  { g with members := Function.update g.members m n }

def setRound (g : LeaseGroup M) (m : M) (r : Round M) : LeaseGroup M :=
  g.set m { g.members m with round := some r }

variable [Fintype M] (c : FixedGroup M)

/-- Node `p` serves a lease request at time `now`. -/
def lend (g : LeaseGroup M) (p : M) (now : Nat) (r : LeaseRequest) : LeaseReply × LeaseGroup M :=
  let n := g.members p
  let (reply, lease) := requestFailoverLease (c.nodeID p) n now r leaseTTL
  (reply, g.set p { n with lease := lease })

/-- `acquireFailoverLeaseRound` up to the first peer. -/
def begin (g : LeaseGroup M) (m : M) (purpose : Purpose) (now : Nat) (r : LeaseRequest) :
    LeaseGroup M :=
  let g := g.set m { g.members m with ticked := now }
  if r.term = 0 ∨ r.leaderID = [] ∨ r.lineage = [] ∨ c.quorum = 0 then
    g.setRound m ⟨purpose, now, r, [], none, [], false⟩
  else
    let (reply, g) := g.lend c m now r
    if r.term < reply.term then g.setRound m ⟨purpose, now, r, [], none, [], false⟩
    else
      g.setRound m ⟨purpose, now, r, c.peers m, none, if reply.granted then [m] else [], false⟩

/-- The maintenance loop works on one thing at a time, with a time it has read. -/
def Ready (g : LeaseGroup M) (m : M) (now : Nat) : Prop :=
  (g.members m).round = none ∧ (g.members m).ticked ≤ now ∧ now ≤ g.clock

instance (g : LeaseGroup M) (m : M) (now : Nat) : Decidable (g.Ready m now) :=
  inferInstanceAs (Decidable (_ ∧ _ ∧ _))

/-- The nodes that have voted for node `m` in the term. -/
def voters (g : LeaseGroup M) (m : M) (term : Nat) : Finset M :=
  Finset.univ.filter fun v => (v, term, c.nodeID m) ∈ g.votes

/-- A primary takes the next term without an election. -/
def establishRequest (g : LeaseGroup M) (m : M) : LeaseRequest :=
  let n := g.members m
  ⟨c.nodeID m, max n.vote.term n.lease.term + 1, c.nodeID m⟩

def electedRequest (g : LeaseGroup M) (m : M) (term : Nat) : LeaseRequest :=
  ⟨(g.members m).masterRunID, term, c.nodeID m⟩

def maintainRequest (g : LeaseGroup M) (m : M) : LeaseRequest :=
  let l := (g.members m).leader
  ⟨l.lineage, l.term, l.leaderID⟩

def step (g : LeaseGroup M) : LeaseEvent M → Option (LeaseGroup M)
  | .tick elapsed => some { g with clock := g.clock + elapsed }
  | .link m down =>
    let n := g.members m
    if n.role = .replica then some (g.set m { n with masterDown := down }) else none
  | .follow m same =>
    let n := g.members m
    some (g.set m { n with
      role := .replica, masterDown := false, leader := .inactive,
      masterRunID := if same then n.masterRunID else [] })
  | .resync m runID =>
    let n := g.members m
    if n.role = .replica then
      some (g.set m { n with masterRunID := runID, masterDown := false })
    else none
  | .detach m => some (g.set m (g.members m).promote)
  | .vote m lineage term candidate ranks =>
    let n := g.members m
    if term < n.vote.term then some g
    else
      let b := n.vote.request term candidate
        (n.autoFailoverDue && n.masterRunID == lineage && ranks)
      let g := g.set m { n with vote := b.vote }
      if b.eligible then some { g with votes := (m, term, candidate) :: g.votes } else some g
  | .establish m now =>
    let n := g.members m
    if g.Ready m now ∧ ¬ n.leader.active ∧ n.role = .master ∧ c.peers m ≠ [] then
      some (g.begin c m .establish now (g.establishRequest c m))
    else none
  | .maintain m now =>
    let n := g.members m
    -- the lease is renewed in its last second
    if g.Ready m now ∧ n.leader.active ∧ ¬ beforeDeadline (now + 1000) n.leader.deadline then
      some (g.begin c m (.maintain n.leader.deadline) now (g.maintainRequest m))
    else none
  | .elected m now term =>
    let n := g.members m
    if g.Ready m now ∧ ¬ n.leader.active ∧ n.autoFailoverDue ∧
        c.quorum ≤ (g.voters c m term).card then
      some (g.begin c m .elected now (g.electedRequest c m term))
    else none
  | .ask m =>
    match (g.members m).round with
    | some ⟨purpose, start, r, p :: todo, none, leases, reached⟩ =>
      let n := g.members p
      if n.role = .replica ∧ (n.masterRunID = r.lineage ∨ n.masterRunID = r.leaderID) then
        some (g.setRound m ⟨purpose, start, r, todo, some (p, none), leases, reached⟩)
      else none
    | _ => none
  | .serve m =>
    match (g.members m).round with
    | some r =>
      match r.pending with
      | some (p, none) =>
        let (reply, g) := g.lend c p g.clock r.request
        some (g.setRound m { r with pending := some (p, some reply) })
      | _ => none
    | none => none
  | .answer m =>
    match (g.members m).round with
    | some r =>
      match r.pending with
      | some (p, some reply) => some (g.setRound m (r.count c.quorum p reply))
      | _ => none
    | none => none
  | .skip m =>
    match (g.members m).round with
    | some r =>
      match r.pending, r.todo with
      -- a request that timed out is still on its way
      | some (p, none), _ =>
        some { g.setRound m { r with pending := none } with
          strays := (p, r.request) :: g.strays }
      | some (_, some _), _ => some (g.setRound m { r with pending := none })
      | none, _ :: todo => some (g.setRound m { r with todo := todo })
      | none, [] => none
    | none => none
  | .stray i =>
    match g.strays[i]? with
    | some (p, r) => some { (g.lend c p g.clock r).2 with strays := g.strays.eraseIdx i }
    | none => none
  | .finish m persisted =>
    match (g.members m).round with
    | some r =>
      if r.pending = none ∧ r.todo = [] then
        some (g.set m ((g.members m).finish (c.nodeID m) r g.clock persisted))
      else none
    | none => none

/-- The lease request that an event lets a node serve. -/
def requestOf (g : LeaseGroup M) : LeaseEvent M → Option (M × LeaseRequest)
  | .establish m _ => some (m, g.establishRequest c m)
  | .maintain m _ => some (m, g.maintainRequest m)
  | .elected m _ term => some (m, g.electedRequest c m term)
  | .serve m => (g.members m).round.bind fun r => r.pending.map fun a => (a.1, r.request)
  | .stray i => g.strays[i]?
  | _ => none

/-- A request of a higher term by another leader finds the lease it replaces run out. -/
def InTurn (g : LeaseGroup M) (p : M) (r : LeaseRequest) : Prop :=
  let n := g.members p
  n.admits (c.nodeID p) r leaseTTL = true → n.lease.term < r.term → n.lease.holder ≠ r.leaderID →
    beforeDeadline g.clock n.lease.deadline = false

instance (g : LeaseGroup M) (p : M) (r : LeaseRequest) : Decidable (g.InTurn c p r) :=
  inferInstanceAs (Decidable (_ → _ → _ → _))

def Careful (g : LeaseGroup M) (e : LeaseEvent M) : Prop :=
  ∀ a ∈ g.requestOf c e, g.InTurn c a.1 a.2

instance (g : LeaseGroup M) (e : LeaseEvent M) : Decidable (g.Careful c e) :=
  inferInstanceAs (Decidable (∀ a ∈ _, _))

/-- A group whose nodes have just started; the votes come from their files, the roles and masters
from their configuration. -/
structure Started (g : LeaseGroup M) : Prop where
  unleased : ∀ m, (g.members m).lease = ⟨0, [], none⟩
  inactive : ∀ m, (g.members m).leader = .inactive
  idle : ∀ m, (g.members m).round = none
  ticked : ∀ m, (g.members m).ticked ≤ g.clock
  strays : g.strays = []
  votes : g.votes = []

/-- An active leader whose writes are not fenced. -/
def Open (g : LeaseGroup M) (m : M) : Prop :=
  (g.members m).leader.active = true ∧
    (failoverWriteFenceStatus (c.nodeID m) (g.members m) g.clock).reason = none

instance (g : LeaseGroup M) (m : M) : Decidable (g.Open c m) :=
  inferInstanceAs (Decidable (_ ∧ _))

end LeaseGroup

/-! ## One lease -/

/-- `id` has the lease at least until `D`, unless that time has come. -/
def Lease.Holds (l : Lease) (clock : Nat) (id : Bytes) (D : Nat) : Prop :=
  D ≤ clock ∨ (l.holder = id ∧ ∃ d, l.deadline = some d ∧ D ≤ d)

section

variable {l : Lease} {now clock ttl D : Nat} {r : LeaseRequest} {id : Bytes}

theorem beforeDeadline_some {d : Nat} : beforeDeadline now (some d) = true ↔ now < d := by
  simp [beforeDeadline]

/-- What a request can do: nothing, or replace the lease by one of the leader that asks. -/
theorem Lease.request_cases (l : Lease) (now : Nat) (r : LeaseRequest) (ttl : Nat) :
    ((l.request now r ttl).1.granted = false ∧ (l.request now r ttl).2 = l) ∨
      ((l.request now r ttl).1.granted = true ∧
        (l.request now r ttl).2 = ⟨r.term, r.leaderID, some (now + ttl)⟩ ∧
          (l.term < r.term ∨ beforeDeadline now l.deadline = false ∨ l.holder = [] ∨
            l.holder = r.leaderID)) := by
  unfold request
  split
  · exact .inl ⟨rfl, rfl⟩
  dsimp only
  by_cases hhigher : l.term < r.term
  · rw [if_pos hhigher, if_neg (by simp [beforeDeadline])]
    exact .inr ⟨rfl, rfl, .inl hhigher⟩
  · rw [if_neg hhigher]
    have hsame : l.term = r.term := by omega
    split
    · exact .inl ⟨rfl, rfl⟩
    · rename_i hfree
      refine .inr ⟨rfl, by rw [hsame], .inr ?_⟩
      by_cases hbefore : beforeDeadline now l.deadline = true
      · by_cases hempty : l.holder = []
        · exact .inr (.inl hempty)
        · exact .inr (.inr (by_contra fun hother => hfree ⟨hbefore, hempty, hother⟩))
      · exact .inl (by simpa using hbefore)

theorem Lease.Holds.mono_clock {clock' : Nat} (h : l.Holds clock id D) (hle : clock ≤ clock') :
    l.Holds clock' id D := by
  rcases h with h | h
  · exact .inl (h.trans hle)
  · exact .inr h

theorem Lease.Holds.request (h : l.Holds clock id D) (hnow : now ≤ clock) (hid : id ≠ [])
    (hturn : l.term < r.term → l.holder ≠ r.leaderID → beforeDeadline clock l.deadline = false)
    (hD : id = r.leaderID → D ≤ now + ttl) : (l.request now r ttl).2.Holds clock id D := by
  rcases h with h | ⟨hholder, d, hd, hDd⟩
  · exact .inl h
  by_cases hpast : D ≤ clock
  · exact .inl hpast
  rcases l.request_cases now r ttl with ⟨-, heq⟩ | ⟨-, heq, hfree⟩
  · rw [heq]
    exact .inr ⟨hholder, d, hd, hDd⟩
  -- the lease has not run out, so only its holder can have replaced it
  have hsame : l.holder = r.leaderID := by
    rcases hfree with hhigher | hexpired | hempty | hsame
    · by_contra hother
      have := hturn hhigher hother
      rw [hd] at this
      simp only [beforeDeadline, Option.any_some, decide_eq_false_iff_not] at this
      omega
    · rw [hd] at hexpired
      simp only [beforeDeadline, Option.any_some, decide_eq_false_iff_not] at hexpired
      omega
    · exact absurd (hholder.symm.trans hempty) hid
    · exact hsame
  have hleader : id = r.leaderID := hholder.symm.trans hsame
  rw [heq]
  exact .inr ⟨hleader.symm, _, rfl, hD hleader⟩

end

/-! ## The invariant -/

abbrev leaderTerm : Nat := leaseTTL - leaseMargin

section

variable [Fintype M] (c : FixedGroup M)

/-- A round counts different nodes whose leases cover its deadline. -/
structure Round.Sound (held : M → Nat → Prop) (m : M) (ticked : Nat) (r : Round M) : Prop where
  start : r.start = ticked
  leaderID : r.request.leaderID = c.nodeID m
  nodup : (r.leases ++ ((r.pending.map (·.1)).toList ++ r.todo)).Nodup
  counted : ∀ p ∈ r.leases, held p (r.start + leaderTerm)
  answered : ∀ p reply, r.pending = some (p, some reply) → reply.granted = true →
    held p (r.start + leaderTerm)
  reached : r.quorumReached = true → c.quorum ≤ r.leases.length
  renews : ∀ D, r.purpose = .maintain (some D) → D ≤ r.start + leaderTerm

/-- A leader whose writes are not fenced has a quorum of leases that cover its deadline. -/
structure Leader.Sound (held : M → Nat → Prop) (m : M) (ticked : Nat) (l : Leader) : Prop where
  leaderID : l.active = true → l.leaderID = c.nodeID m
  bounded : ∀ D, l.deadline = some D → D ≤ ticked + leaderTerm
  quorum : ∀ D, l.active = true → l.fenced = false → l.deadline = some D →
    ∃ Q : Finset M, c.quorum ≤ Q.card ∧ ∀ p ∈ Q, held p D

structure Member.Sound (held : M → Nat → Prop) (m : M) (n : Member M) : Prop where
  leader : n.leader.Sound c held m n.ticked
  round : ∀ r, n.round = some r → r.Sound c held m n.ticked

namespace LeaseGroup

def Held (g : LeaseGroup M) (m p : M) (D : Nat) : Prop :=
  (g.members p).lease.Holds g.clock (c.nodeID m) D

structure Exclusive (g : LeaseGroup M) : Prop where
  sound : ∀ m, (g.members m).Sound c (g.Held c m) m
  recent : ∀ p d, (g.members p).lease.deadline = some d → d ≤ g.clock + leaseTTL
  ticked : ∀ m, (g.members m).ticked ≤ g.clock

end LeaseGroup

end

variable {n : Member M}

section

variable [Fintype M] {c : FixedGroup M} {held held' : M → Nat → Prop} {m : M} {ticked : Nat}
  {r : Round M}

theorem Round.Sound.mono (h : r.Sound c held m ticked)
    (hheld : ∀ p D, D ≤ ticked + leaderTerm → held p D → held' p D) :
    r.Sound c held' m ticked := by
  have hD : r.start + leaderTerm ≤ ticked + leaderTerm := by rw [h.start]
  exact { h with
    counted := fun p hp => hheld p _ hD (h.counted p hp)
    answered := fun p reply hr hg => hheld p _ hD (h.answered p reply hr hg) }

theorem Leader.Sound.mono {l : Leader} (h : l.Sound c held m ticked)
    (hheld : ∀ p D, D ≤ ticked + leaderTerm → held p D → held' p D) :
    l.Sound c held' m ticked := by
  refine { h with quorum := fun D hact hfence hD => ?_ }
  obtain ⟨Q, hQ, hp⟩ := h.quorum D hact hfence hD
  exact ⟨Q, hQ, fun p hpQ => hheld p D (h.bounded D hD) (hp p hpQ)⟩

theorem Leader.Sound.mono_ticked {l : Leader} {ticked' : Nat} (h : l.Sound c held m ticked)
    (hle : ticked ≤ ticked') : l.Sound c held m ticked' :=
  { h with bounded := fun D hD => (h.bounded D hD).trans (Nat.add_le_add_right hle _) }

theorem Leader.Sound.inactive : Leader.inactive.Sound c held m ticked := ⟨nofun, nofun, nofun⟩

theorem Member.Sound.mono (h : n.Sound c held m)
    (hheld : ∀ p D, D ≤ n.ticked + leaderTerm → held p D → held' p D) : n.Sound c held' m :=
  ⟨h.leader.mono hheld, fun r hr => (h.round r hr).mono hheld⟩

/-! ## Steps -/

/-- What a round that has ended says of its deadline. -/
theorem Round.Sound.quorum_held [DecidableEq M] (h : r.Sound c held m ticked)
    (hreached : r.quorumReached = true) {D : Nat} (hD : r.expiresAt = some D) :
    D = ticked + leaderTerm ∧ ∃ Q : Finset M, c.quorum ≤ Q.card ∧ ∀ p ∈ Q, held p D := by
  unfold Round.expiresAt at hD
  split at hD
  · cases hD
  cases hD
  refine ⟨by rw [h.start], r.leases.toFinset, ?_, fun p hp => h.counted p (mem_toFinset.1 hp)⟩
  rw [toFinset_card_of_nodup (Nodup.of_append_left h.nodup)]
  exact h.reached hreached

theorem Round.Sound.count (h : r.Sound c held m ticked) {p : M} {reply : LeaseReply}
    (hpending : r.pending = some (p, some reply)) :
    (r.count c.quorum p reply).Sound c held m ticked := by
  have hnodup := h.nodup
  rw [hpending] at hnodup
  have hleases : (r.leases ++ [p] ++ r.todo).Nodup := by simpa using hnodup
  have hrest : (r.leases ++ r.todo).Nodup :=
    hnodup.sublist ((sublist_append_right _ _).append_left _)
  unfold Round.count
  split
  · exact { h with
      nodup := by simpa using Nodup.of_append_left h.nodup
      answered := nofun }
  dsimp only
  -- the leases with the one that was granted
  have hcounted : ∀ q ∈ (if reply.granted then r.leases ++ [p] else r.leases),
      held q (r.start + leaderTerm) := by
    intro q hq
    split at hq
    · rename_i hgranted
      rcases mem_append.1 hq with hq | hq
      · exact h.counted q hq
      · rw [mem_singleton.1 hq]
        exact h.answered p reply hpending hgranted
    · exact h.counted q hq
  have hall : ((if reply.granted then r.leases ++ [p] else r.leases) ++ r.todo).Nodup := by
    split
    · exact hleases
    · exact hrest
  have hlength : r.leases.length ≤
      (if reply.granted then r.leases ++ [p] else r.leases).length := by
    split
    · simp
    · exact le_rfl
  generalize (if reply.granted then r.leases ++ [p] else r.leases) = leases at *
  split
  · rename_i hquorum
    exact { h with
      nodup := by simpa using Nodup.of_append_left hall
      counted := hcounted
      answered := nofun
      reached := fun _ => hquorum }
  · exact { h with
      nodup := hall
      counted := hcounted
      answered := nofun
      reached := fun hr => (h.reached hr).trans hlength }

theorem Member.Sound.finish [DecidableEq M] (h : n.Sound c held m)
    (hr : n.round = some r) (clock : Nat) (persisted : Bool) :
    (n.finish (c.nodeID m) r clock persisted).Sound c held m := by
  have hround := h.round r hr
  -- a deadline that stands for a quorum of leases
  have hactivate : ∀ term lineage expiresAt, (expiresAt = none ∨
      (r.quorumReached = true ∧ expiresAt = r.expiresAt)) →
      (Leader.activate term lineage (c.nodeID m) expiresAt clock).Sound c held m n.ticked := by
    intro term lineage expiresAt hexp
    rcases hexp with rfl | ⟨hreached, rfl⟩
    · exact ⟨fun _ => rfl, nofun, nofun⟩
    · refine ⟨fun _ => rfl, fun D hD => ?_, fun D _ _ hD => (hround.quorum_held hreached hD).2⟩
      exact (hround.quorum_held hreached hD).1.le
  unfold Member.finish
  dsimp only
  split
  · refine ⟨?_, nofun⟩
    rw [hround.leaderID]
    refine hactivate _ _ _ ?_
    split
    · exact .inr ⟨‹_›, rfl⟩
    · exact .inl rfl
  · rename_i expiresAt hpurpose
    split
    · rename_i hgot
      refine ⟨?_, nofun⟩
      unfold Leader.updateLease
      split
      · exact ⟨h.leader.leaderID, fun D hD => (hround.quorum_held hgot.1 hD).1.le,
          fun D _ _ hD => (hround.quorum_held hgot.1 hD).2⟩
      · exact h.leader
    · split
      · refine ⟨?_, nofun⟩
        unfold Leader.updateLease
        split
        · refine ⟨h.leader.leaderID, fun D hD => ?_, nofun⟩
          have hD' : expiresAt = some D := hD
          rw [← hround.start]
          exact hround.renews D (by rw [hpurpose, hD'])
        · exact h.leader
      · exact ⟨h.leader, nofun⟩
  · split
    · rename_i hgot
      exact ⟨hactivate _ _ _ (.inr ⟨hgot.1, rfl⟩), nofun⟩
    · exact ⟨h.leader, nofun⟩

end

namespace LeaseGroup

variable [Fintype M] [DecidableEq M] {c : FixedGroup M} {g g' : LeaseGroup M} {m : M}

omit [Fintype M] in
@[simp] theorem set_self (g : LeaseGroup M) (m : M) (n : Member M) : (g.set m n).members m = n := by
  simp [set]

omit [Fintype M] in
theorem set_ne (g : LeaseGroup M) {m x : M} (n : Member M) (h : x ≠ m) :
    (g.set m n).members x = g.members x := by
  simp [set, h]

omit [Fintype M] in
@[simp] theorem set_clock (g : LeaseGroup M) (m : M) (n : Member M) :
    (g.set m n).clock = g.clock := rfl

omit [Fintype M] in
theorem set_lease (hlease : n.lease = (g.members m).lease) (p : M) :
    ((g.set m n).members p).lease = (g.members p).lease := by
  by_cases hp : p = m
  · subst hp
    rw [set_self, hlease]
  · rw [set_ne g n hp]

theorem Exclusive.set (h : g.Exclusive c)
    (hlease : n.lease = (g.members m).lease) (hticked : n.ticked ≤ g.clock)
    (hn : n.Sound c (g.Held c m) m) : (g.set m n).Exclusive c := by
  have hheld : ∀ x, (g.set m n).Held c x = g.Held c x := by
    intro x
    funext p D
    unfold Held
    rw [set_lease hlease, set_clock]
  refine ⟨fun x => ?_, fun p d hd => ?_, fun x => ?_⟩
  · rw [hheld]
    by_cases hx : x = m
    · subst hx
      rwa [set_self]
    · rw [set_ne g n hx]
      exact h.sound x
  · rw [set_lease hlease] at hd
    exact h.recent p d hd
  · by_cases hx : x = m
    · subst hx
      rwa [set_self]
    · rw [set_ne g n hx]
      exact h.ticked x

theorem Exclusive.set_other (h : g.Exclusive c)
    (hlease : n.lease = (g.members m).lease) (hticked : n.ticked = (g.members m).ticked)
    (hleader : n.leader = (g.members m).leader) (hround : n.round = (g.members m).round) :
    (g.set m n).Exclusive c := by
  refine h.set hlease (hticked ▸ h.ticked m) ⟨?_, fun r hr => ?_⟩
  · rw [hleader, hticked]
    exact (h.sound m).leader
  · rw [hticked]
    exact (h.sound m).round r (hround ▸ hr)

theorem Exclusive.setRound (h : g.Exclusive c) {r : Round M}
    (hr : r.Sound c (g.Held c m) m (g.members m).ticked) : (g.setRound m r).Exclusive c := by
  refine h.set rfl (h.ticked m) ⟨(h.sound m).leader, fun r' hr' => ?_⟩
  cases hr'
  exact hr

/-! ### Requests -/

section

variable {p : M} {now : Nat} {r : LeaseRequest} {purpose : Purpose}

theorem lend_eq : g.lend c p now r =
    ((requestFailoverLease (c.nodeID p) (g.members p) now r leaseTTL).1, g.set p { g.members p with
        lease := (requestFailoverLease (c.nodeID p) (g.members p) now r leaseTTL).2 }) := rfl

theorem lend_self : ((g.lend c p now r).2.members p).lease =
    (requestFailoverLease (c.nodeID p) (g.members p) now r leaseTTL).2 := by
  rw [lend_eq, set_self]

theorem lend_member (c : FixedGroup M) (g : LeaseGroup M) (p : M) (now : Nat) (r : LeaseRequest)
    (x : M) : ∃ lease, (g.lend c p now r).2.members x =
    { g.members x with lease := lease } := by
  by_cases hx : x = p
  · subst hx
    exact ⟨_, set_self _ _ _⟩
  · exact ⟨_, set_ne g _ hx⟩

theorem Held.lend {x q : M} {D : Nat} (h : g.Held c x q D) (hnow : now ≤ g.clock)
    (hturn : g.InTurn c p r) (hD : c.nodeID x = r.leaderID → D ≤ now + leaseTTL) :
    (g.lend c p now r).2.Held c x q D := by
  by_cases hq : q = p
  · subst hq
    unfold Held
    rw [lend_self]
    unfold requestFailoverLease
    split
    · rename_i hadmits
      exact Lease.Holds.request h hnow (c.nodeID_ne_nil x) (hturn hadmits) hD
    · exact h
  · unfold Held
    rw [lend_eq, set_ne g _ hq]
    exact h

theorem lend_granted {x : M} {D : Nat} (hgranted : (g.lend c p now r).1.granted = true)
    (hleader : r.leaderID = c.nodeID x) (hD : D ≤ now + leaseTTL) :
    (g.lend c p now r).2.Held c x p D := by
  unfold Held
  rw [lend_self]
  rw [lend_eq] at hgranted
  unfold requestFailoverLease at hgranted ⊢
  split at hgranted
  · rename_i hadmits
    rw [if_pos hadmits]
    rcases (g.members p).lease.request_cases now r leaseTTL with ⟨hno, -⟩ | ⟨-, heq, -⟩
    · rw [hno] at hgranted
      cases hgranted
    · rw [heq]
      exact .inr ⟨hleader, _, rfl, hD⟩
  · cases hgranted

theorem Exclusive.lend (h : g.Exclusive c) (hnow : now ≤ g.clock) (hturn : g.InTurn c p r)
    (hticked : ∀ x, c.nodeID x = r.leaderID → (g.members x).ticked ≤ now) :
    (g.lend c p now r).2.Exclusive c := by
  have hmargin : leaderTerm ≤ leaseTTL := Nat.sub_le _ _
  refine ⟨fun x => ?_, fun q d hd => ?_, fun x => ?_⟩
  · have hsound := (h.sound x).mono fun q D hD (hheld : g.Held c x q D) =>
      hheld.lend hnow hturn fun hx => by have := hticked x hx; omega
    obtain ⟨lease, heq⟩ := lend_member c g p now r x
    rw [heq]
    exact ⟨hsound.leader, hsound.round⟩
  · by_cases hq : q = p
    · subst hq
      rw [lend_self] at hd
      unfold requestFailoverLease at hd
      split at hd
      · rcases (g.members q).lease.request_cases now r leaseTTL with ⟨-, heq⟩ | ⟨-, heq, -⟩
        · rw [heq] at hd
          exact h.recent q d hd
        · rw [heq] at hd
          cases hd
          exact Nat.add_le_add_right hnow _
      · exact h.recent q d hd
    · rw [lend_eq, set_ne g _ hq] at hd
      exact h.recent q d hd
  · obtain ⟨lease, heq⟩ := lend_member c g p now r x
    rw [heq]
    exact h.ticked x

omit [DecidableEq M] in
theorem empty_sound (c : FixedGroup M) (held : M → Nat → Prop) (m : M)
    (hleader : r.leaderID = c.nodeID m)
    (hpurpose : ∀ D, purpose = .maintain (some D) → D ≤ now + leaderTerm) :
    (⟨purpose, now, r, [], none, [], false⟩ : Round M).Sound c held m now where
  start := rfl
  leaderID := hleader
  nodup := nodup_nil
  counted := nofun
  answered := nofun
  reached := nofun
  renews := hpurpose

theorem Exclusive.begin (h : g.Exclusive c) (hready : g.Ready m now)
    (hturn : g.InTurn c m r) (hleader : r.leaderID = c.nodeID m)
    (hpurpose : ∀ D, purpose = .maintain (some D) → D ≤ now + leaderTerm) :
    (g.begin c m purpose now r).Exclusive c := by
  obtain ⟨hidle, hticked, hnow⟩ := hready
  have h₁ : (g.set m { g.members m with ticked := now }).Exclusive c := by
    refine h.set rfl hnow ⟨(h.sound m).leader.mono_ticked hticked, fun r hr => ?_⟩
    rw [show (g.members m).round = some r from hr] at hidle
    cases hidle
  have hturn₁ : (g.set m { g.members m with ticked := now }).InTurn c m r := by
    unfold InTurn
    rw [set_self]
    exact hturn
  have htime : ((g.set m { g.members m with ticked := now }).members m).ticked = now := by
    rw [set_self]
  unfold LeaseGroup.begin
  dsimp only
  generalize g.set m { g.members m with ticked := now } = g₁ at *
  split
  · exact h₁.setRound (htime.symm ▸ empty_sound c _ m hleader hpurpose)
  -- the node asks itself first
  have hown : ∀ x, c.nodeID x = r.leaderID → (g₁.members x).ticked ≤ now := by
    intro x hx
    rw [c.nodeID_injective (hx.trans hleader), htime]
  have hclock : now ≤ g₁.clock := htime ▸ h₁.ticked m
  have h₂ := h₁.lend hclock hturn₁ hown
  have htime₂ : ((g₁.lend c m now r).2.members m).ticked = now := by
    obtain ⟨lease, heq⟩ := lend_member c g₁ m now r m
    rw [heq]
    exact htime
  have hgranted : (g₁.lend c m now r).1.granted = true →
      (g₁.lend c m now r).2.Held c m m (now + leaderTerm) := fun hg =>
    lend_granted hg hleader (Nat.add_le_add_left (Nat.sub_le _ _) _)
  split
  · exact h₂.setRound (htime₂.symm ▸ empty_sound c _ m hleader hpurpose)
  · refine h₂.setRound ⟨htime₂.symm, hleader, ?_, fun p hp => ?_, nofun, nofun, hpurpose⟩
    · have hpeers := c.peers_nodup m
      split
      · exact hpeers
      · exact hpeers.of_cons
    · split at hp
      · rw [mem_singleton.1 hp]
        exact hgranted ‹_›
      · cases hp

end

/-! ### Events -/

omit [DecidableEq M] in
theorem Exclusive.tick (h : g.Exclusive c) (elapsed : Nat) :
    ({ g with clock := g.clock + elapsed } : LeaseGroup M).Exclusive c := by
  have hle : g.clock ≤ g.clock + elapsed := Nat.le_add_right _ _
  refine ⟨fun x => (h.sound x).mono fun p D _ hheld => ?_, fun p d hd => ?_,
    fun x => (h.ticked x).trans hle⟩
  · exact Lease.Holds.mono_clock hheld hle
  · exact (h.recent p d hd).trans (Nat.add_le_add_right hle _)

theorem Exclusive.ask (h : g.Exclusive c) (hs : g.step c (.ask m) = some g') : g'.Exclusive c := by
  simp only [step] at hs
  split at hs
  · rename_i purpose start r p todo leases reached hround
    split at hs
    · cases hs
      have hsound := (h.sound m).round _ hround
      exact h.setRound { hsound with answered := nofun }
    · cases hs
  · cases hs

theorem Exclusive.serve (h : g.Exclusive c) (hcare : g.Careful c (.serve m))
    (hs : g.step c (.serve m) = some g') : g'.Exclusive c := by
  simp only [step] at hs
  split at hs
  swap
  · cases hs
  rename_i r hround
  split at hs
  swap
  · cases hs
  rename_i p hpending
  cases hs
  have hsound := (h.sound m).round r hround
  have hturn : g.InTurn c p r.request := hcare (p, r.request) (by
    simp [requestOf, hround, hpending])
  have h₂ := h.lend le_rfl hturn fun x _ => h.ticked x
  -- the round of the node that asks is still the same
  obtain ⟨lease, heq⟩ := lend_member c g p g.clock r.request m
  have hround₂ := (h₂.sound m).round r (by rw [heq]; exact hround)
  have hstart : r.start ≤ g.clock := hsound.start ▸ h.ticked m
  refine h₂.setRound { hround₂ with nodup := ?_, answered := fun q reply hq hg => ?_ }
  · have := hround₂.nodup
    rw [hpending] at this
    exact this
  · cases hq
    exact lend_granted hg hsound.leaderID (add_le_add hstart (Nat.sub_le _ _))

theorem Exclusive.answer (h : g.Exclusive c) (hs : g.step c (.answer m) = some g') :
    g'.Exclusive c := by
  simp only [step] at hs
  split at hs
  swap
  · cases hs
  rename_i r hround
  split at hs
  · cases hs
    exact h.setRound (((h.sound m).round r hround).count ‹_›)
  · cases hs

theorem Exclusive.skip (h : g.Exclusive c) (hs : g.step c (.skip m) = some g') :
    g'.Exclusive c := by
  simp only [step] at hs
  split at hs
  swap
  · cases hs
  rename_i r hround
  have hsound := (h.sound m).round r hround
  -- a round that gives up a peer asks fewer nodes
  have hfewer : ∀ todo : List M, todo.Sublist r.todo →
      (g.setRound m { r with pending := none, todo := todo }).Exclusive c := fun todo hsub =>
    h.setRound { hsound with
      nodup := hsound.nodup.sublist ((hsub.trans (sublist_append_right _ _)).append_left r.leases)
      answered := nofun }
  split at hs
  · cases hs
    have hset := hfewer r.todo (Sublist.refl _)
    exact ⟨hset.sound, hset.recent, hset.ticked⟩
  · cases hs
    exact hfewer r.todo (Sublist.refl _)
  · rename_i hnone htodo
    cases hs
    have hset := hfewer _ (htodo ▸ sublist_cons_self _ _)
    rw [← hnone] at hset
    exact hset
  · cases hs

theorem Exclusive.stray (h : g.Exclusive c) {i : Nat} (hcare : g.Careful c (.stray i))
    (hs : g.step c (.stray i) = some g') : g'.Exclusive c := by
  simp only [step] at hs
  split at hs
  · rename_i p r hi
    cases hs
    have h₂ := h.lend le_rfl (hcare (p, r) hi) fun x _ => h.ticked x
    exact ⟨h₂.sound, h₂.recent, h₂.ticked⟩
  · cases hs

theorem Exclusive.finish (h : g.Exclusive c) {persisted : Bool}
    (hs : g.step c (.finish m persisted) = some g') : g'.Exclusive c := by
  simp only [step] at hs
  split at hs
  swap
  · cases hs
  rename_i r hround
  split at hs
  · cases hs
    have hsame : ((g.members m).finish (c.nodeID m) r g.clock persisted).lease =
        (g.members m).lease ∧
          ((g.members m).finish (c.nodeID m) r g.clock persisted).ticked =
            (g.members m).ticked := by
      unfold Member.finish
      cases r.purpose <;> dsimp only <;> (repeat' split) <;> exact ⟨rfl, rfl⟩
    exact h.set hsame.1 (hsame.2 ▸ h.ticked m) ((h.sound m).finish hround g.clock persisted)
  · cases hs

theorem Exclusive.vote (h : g.Exclusive c) {lineage candidate : Bytes} {term : Nat} {ranks : Bool}
    (hs : g.step c (.vote m lineage term candidate ranks) = some g') : g'.Exclusive c := by
  simp only [step] at hs
  split at hs
  · cases hs
    exact h
  have hset : ∀ v : Vote, (g.set m { g.members m with vote := v }).Exclusive c := fun v =>
    h.set_other rfl rfl rfl rfl
  split at hs
  · cases hs
    have := hset ((g.members m).vote.request term candidate
      ((g.members m).autoFailoverDue && (g.members m).masterRunID == lineage && ranks)).vote
    exact ⟨this.sound, this.recent, this.ticked⟩
  · cases hs
    exact hset _

theorem Exclusive.step (g : LeaseGroup M) (e : LeaseEvent M) (g' : LeaseGroup M)
    (h : g.Exclusive c) (hcare : g.Careful c e) (hs : g.step c e = some g') :
    g'.Exclusive c := by
  cases e with
  | tick elapsed =>
    cases hs
    exact h.tick elapsed
  | link m down =>
    simp only [LeaseGroup.step] at hs
    split at hs
    · cases hs
      exact h.set_other rfl rfl rfl rfl
    · cases hs
  | follow m same =>
    cases hs
    exact h.set rfl (h.ticked m) ⟨.inactive, (h.sound m).round⟩
  | resync m runID =>
    simp only [LeaseGroup.step] at hs
    split at hs
    · cases hs
      exact h.set_other rfl rfl rfl rfl
    · cases hs
  | detach m =>
    cases hs
    exact h.set_other rfl rfl rfl rfl
  | vote m lineage term candidate ranks => exact h.vote hs
  | establish m now =>
    simp only [LeaseGroup.step] at hs
    split at hs
    · rename_i hguard
      cases hs
      exact h.begin hguard.1 (hcare _ rfl) rfl nofun
    · cases hs
  | maintain m now =>
    simp only [LeaseGroup.step] at hs
    split at hs
    · rename_i hguard
      cases hs
      refine h.begin hguard.1 (hcare _ rfl) ((h.sound m).leader.leaderID hguard.2.1) fun D hp => ?_
      have hD : (g.members m).leader.deadline = some D := by simpa using hp
      exact ((h.sound m).leader.bounded D hD).trans (Nat.add_le_add_right hguard.1.2.1 _)
    · cases hs
  | elected m now term =>
    simp only [LeaseGroup.step] at hs
    split at hs
    · rename_i hguard
      cases hs
      exact h.begin hguard.1 (hcare _ rfl) rfl nofun
    · cases hs
  | ask m => exact h.ask hs
  | serve m => exact h.serve hcare hs
  | answer m => exact h.answer hs
  | skip m => exact h.skip hs
  | stray i => exact h.stray hcare hs
  | finish m persisted => exact h.finish hs

omit [DecidableEq M] in
theorem Started.exclusive (h : g.Started) : g.Exclusive c := by
  refine ⟨fun m => ⟨?_, fun r hr => ?_⟩, fun p d hd => ?_, h.ticked⟩
  · rw [h.inactive m]
    exact .inactive
  · rw [h.idle m] at hr
    cases hr
  · rw [h.unleased p] at hd
    cases hd

omit [DecidableEq M] in
theorem Open.quorum (h : g.Exclusive c) (hopen : g.Open c m) :
    ∃ Q : Finset M, c.quorum ≤ Q.card ∧ ∀ p ∈ Q, (g.members p).lease.holder = c.nodeID m := by
  obtain ⟨hactive, hreason⟩ := hopen
  unfold failoverWriteFenceStatus at hreason
  split at hreason
  · cases hreason
  rename_i hvalid
  have hfence : (g.members m).leader.fenced = false := by
    by_contra hf
    exact hvalid ⟨hactive, .inl (by simpa using hf)⟩
  have hbefore : beforeDeadline g.clock (g.members m).leader.deadline = true := by
    by_contra hb
    exact hvalid ⟨hactive, .inr hb⟩
  cases hD : (g.members m).leader.deadline with
  | none =>
    rw [hD] at hbefore
    cases hbefore
  | some D =>
    rw [hD, beforeDeadline_some] at hbefore
    obtain ⟨Q, hQ, hheld⟩ := (h.sound m).leader.quorum D hactive hfence hD
    refine ⟨Q, hQ, fun p hp => ?_⟩
    rcases hheld p hp with hpast | ⟨hholder, -⟩
    · omega
    · exact hholder

/-- In every run of careful events, from nodes that have just started, two nodes whose writes are
open are the same. -/
theorem one_open_of_careful (c : FixedGroup M) (g₀ g : LeaseGroup M)
    (events : List (LeaseEvent M)) (hstart : g₀.Started)
    (hcare : Along (step c) (Careful c) g₀ events) (hrun : run (step c) g₀ events = some g)
    (a b : M) (ha : g.Open c a) (hb : g.Open c b) : a = b := by
  have hexclusive := run_preserves (fun g e g' => Exclusive.step (c := c) g e g')
    hstart.exclusive hcare hrun
  obtain ⟨Q, hQ, hQa⟩ := ha.quorum hexclusive
  obtain ⟨R, hR, hRb⟩ := hb.quorum hexclusive
  -- two majorities have a node in common, and it has one holder
  have hmajority := c.majority
  obtain ⟨p, hp⟩ := Finset.inter_nonempty_of_card_lt_card_add_card (Finset.subset_univ Q)
    (Finset.subset_univ R) (by rw [Finset.card_univ]; omega)
  obtain ⟨hpQ, hpR⟩ := Finset.mem_inter.1 hp
  exact c.nodeID_injective ((hQa p hpQ).symm.trans (hRb p hpR))

end LeaseGroup

/-! ## A primary and two replicas -/

namespace ThreeHolders

def membership : FixedGroup (Fin 3) where
  nodeID m := [97 + UInt8.ofNat m.val]
  nodeID_injective := by decide
  nodeID_ne_nil := by decide
  peers m := (List.finRange 3).filter (· ≠ m)
  peers_nodup := by decide
  quorum := 2
  majority := by decide

def started : LeaseGroup (Fin 3) where
  members m := {
    role := if m = 0 then .master else .replica
    masterRunID := if m = 0 then [] else [97]
    masterDown := false
    vote := ⟨0, []⟩
    lease := ⟨0, [], none⟩
    leader := .inactive
    ticked := 0
    round := none }
  clock := 0
  strays := []
  votes := []

theorem started_ok : started.Started :=
  ⟨fun _ => rfl, fun _ => rfl, fun _ => rfl, fun _ => le_rfl, rfl, rfl⟩

/-- The primary gets a lease of its own and one of node 1. -/
def established : List (LeaseEvent (Fin 3)) :=
  [.establish 0 0, .ask 0, .serve 0, .answer 0, .finish 0 true]

def linksDown : List (LeaseEvent (Fin 3)) :=
  [.tick 1000, .link 1 true, .link 2 true]

/-- Node 1 is elected in the term after that of the primary's lease. The first election, in the
term of that lease, is not won: one answer is lost. -/
def replaced : List (LeaseEvent (Fin 3)) :=
  [.vote 1 [97] 1 [98] true, .vote 2 [97] 1 [98] true,
    .vote 1 [97] 2 [98] true, .vote 2 [97] 2 [98] true,
    .elected 1 1000 2, .skip 1, .ask 1, .serve 1, .answer 1, .finish 1 true]

end ThreeHolders

namespace LeaseGroup

open ThreeHolders in
theorem one_open_established : ∃ g, run (step membership) started established = some g ∧
    g.Open membership 0 ∧ ∀ m, g.Open membership m → m = 0 := by
  refine ⟨_, rfl, by decide, fun m hm => ?_⟩
  exact one_open_of_careful membership started _ established started_ok (by decide) rfl m 0 hm
    (by decide)

open ThreeHolders in
/-- Node 1 is an open leader while the lease of the primary has more than a second to run. -/
theorem two_open_replaced : started.Started ∧
    ∃ g, run (step membership) started (established ++ linksDown ++ replaced) = some g ∧
      g.Open membership 0 ∧ g.Open membership 1 :=
  ⟨started_ok, _, rfl, by decide, by decide⟩

end LeaseGroup

end Failover
end SnugKV
