import SnugKV.Lib.Rank
import SnugKV.Lib.Run
import Mathlib.Data.Finset.Card
import Mathlib.Data.Fintype.Card
import Mathlib.Logic.Function.Basic

/-!
# Elections — votes, their sidecar file and the rounds that count them

A node keeps its term and its vote in memory and in a sidecar file. A vote request changes the
memory under a mutex and writes the file after the mutex is released; the vote is granted once
the write has succeeded, or at once when nothing changed.

* requests of other nodes are served one at a time, but the node's own vote is cast by its
  election round, next to them: two writes may be under way;
* a write may fail, before or after the file was replaced, and a file that was replaced without
  the directory being synced may be undone by a crash;
* a crash drops what is under way, and the restarted node reads one of the files it may find.

`Careful` is the condition under which a term has one winner: a request starts when no write is
under way, and a vote that is asked for again is in the only file a crash may leave.  A term is a
`Nat` here and a `uint64` in the source.
-/

namespace SnugKV
namespace Failover

open Lib List

/-! ## One node -/

/-- The term and the vote in it; the empty id is no vote. -/
structure Vote where
  term : Nat
  votedFor : Bytes
  deriving DecidableEq, Repr

/-- A write of the sidecar file that is under way. -/
structure Write where
  /-- Belongs to the node's own election round. -/
  own : Bool
  vote : Vote
  /-- The vote that is granted once the write has succeeded. -/
  grants : Bool
  deriving DecidableEq, Repr

structure Voter where
  memory : Vote
  file : Vote
  /-- The files that a crash may bring back instead. -/
  older : List Vote
  writes : List Write
  deriving DecidableEq, Repr

/-- What a crash may leave. -/
def Voter.files (n : Voter) : List Vote := n.file :: n.older

/-- `failoverVoteReply` -/
structure VoteReply where
  term : Nat
  granted : Bool
  deriving DecidableEq, Repr

/-- The memory after a request: a higher term starts without a vote. -/
def Vote.advance (v : Vote) (term : Nat) : Vote :=
  if v.term < term then ⟨term, []⟩ else v

/-- `requestFailoverVote` up to the release of the mutex. `fit` is what the node's own state says
of the candidate: it is a replica of the same lineage whose master is down, and the candidate has
a positive priority and at least its offset. -/
structure Ballot where
  vote : Vote
  changed : Bool
  eligible : Bool
  deriving DecidableEq, Repr

def Vote.request (v : Vote) (term : Nat) (candidate : Bytes) (fit : Bool) : Ballot :=
  let u := v.advance term
  let eligible := fit && candidate != [] && (u.votedFor == [] || u.votedFor == candidate)
  { vote := if eligible then ⟨u.term, candidate⟩ else u
    changed := decide (v.term < term) || (eligible && u.votedFor != candidate)
    eligible := eligible }

/-! ## The group -/

variable {M : Type}

/-- A vote that was granted: voter, term and candidate. -/
abbrev Grant (M : Type) := M × Nat × Bytes

structure Group (M : Type) where
  voters : M → Voter
  /-- Every vote granted so far. -/
  grants : List (Grant M)

/-- The end of a sidecar write. -/
inductive Outcome where
  | written
  /-- The file is the old one. -/
  | failed
  /-- The file is the new one, but the directory was not synced and the caller gets an error. -/
  | unconfirmed
  deriving DecidableEq, Repr

inductive ElectionEvent (M : Type) where
  | request (v : M) (own : Bool) (term : Nat) (candidate : Bytes) (fit : Bool)
  | finish (v : M) (i : Nat) (outcome : Outcome)
  /-- A crash and the restart that reads the file it has left. -/
  | crash (v : M) (left : Vote)

namespace Group

variable [DecidableEq M]

def set (g : Group M) (v : M) (n : Voter) : Group M :=
  { g with voters := Function.update g.voters v n }

def step (g : Group M) : ElectionEvent M → Option (Group M)
  | .request v own term candidate fit =>
    let n := g.voters v
    -- the command lock and the single election round
    if n.writes.any fun w => w.own == own then none
    else if term < n.memory.term then some g
    else
      let b := n.memory.request term candidate fit
      if b.changed then
        some (g.set v { n with
          memory := b.vote, writes := n.writes ++ [⟨own, b.vote, b.eligible⟩] })
      else if b.eligible then some { g with grants := (v, term, candidate) :: g.grants }
      else some g
  | .finish v i outcome =>
    let n := g.voters v
    match n.writes[i]? with
    | none => none
    | some w =>
      let n := { n with writes := n.writes.eraseIdx i }
      match outcome with
      | .failed => some (g.set v n)
      | .unconfirmed => some (g.set v { n with file := w.vote, older := n.files })
      | .written =>
        let g := g.set v { n with file := w.vote, older := [] }
        if w.grants then
          some { g with grants := (v, w.vote.term, w.vote.votedFor) :: g.grants }
        else some g
  | .crash v left =>
    let n := g.voters v
    if left ∉ n.files then none
    -- the file may have survived the node only, and not yet the machine
    else some (g.set v ⟨left, left, if left = n.file then n.older else [], []⟩)

/-- A request is served when no write is under way, and finds a vote that is asked for again in
every file that a crash may leave. -/
def Careful (g : Group M) : ElectionEvent M → Prop
  | .request v _ term candidate _ =>
    (g.voters v).writes = [] ∧ ((g.voters v).memory = ⟨term, candidate⟩ →
      (g.voters v).files = [(g.voters v).memory])
  | _ => True

instance (g : Group M) : ∀ e, Decidable (g.Careful e)
  | .request _ _ _ _ _ => inferInstanceAs (Decidable (_ ∧ _))
  | .finish _ _ _ => isTrue trivial
  | .crash _ _ => isTrue trivial

/-- A group whose nodes have just started. -/
structure Started (g : Group M) : Prop where
  loaded : ∀ v, (g.voters v).files = [(g.voters v).memory]
  idle : ∀ v, (g.voters v).writes = []
  grants : g.grants = []

end Group

/-! ## Rounds -/

/-- `failoverObservation` -/
structure Observation where
  nodeID : Bytes
  masterDown : Bool
  eligible : Bool
  offset : Int
  priority : Int
  deriving DecidableEq, Repr

/-- The order of the candidates: higher offset, then lower priority number, then lower id. -/
def Observation.before (a b : Observation) : Prop :=
  b.offset < a.offset ∨ (a.offset = b.offset ∧
    (a.priority < b.priority ∨ (a.priority = b.priority ∧ a.nodeID ≤ b.nodeID)))

instance (a b : Observation) : Decidable (a.before b) :=
  inferInstanceAs (Decidable (_ ∨ _))

/-- The first observation of every node with an id. -/
def uniqueObservations (os : List Observation) : List Observation :=
  os.foldl (fun seen o =>
    if o.nodeID = [] ∨ seen.any (fun p => p.nodeID == o.nodeID) then seen else seen ++ [o]) []

/-- `evaluateFailoverElection`: the candidate, once enough nodes see the master down. -/
def evaluateFailoverElection (os : List Observation) (quorum : Nat) : Option Bytes :=
  if quorum = 0 then none
  else
    let unique := uniqueObservations os
    if (unique.countP (·.masterDown)) < quorum then none
    else
      let candidates := unique.filter fun o => o.eligible && decide (0 < o.priority)
      ((candidates.insertionSort Observation.before).head?).map (·.nodeID)

/-- The count over the peers' answers; `none` is a peer that did not answer. -/
def countVotes (quorum term : Nat) : Nat → List (Option VoteReply) → Bool
  | _, [] => false
  | votes, none :: rest => countVotes quorum term votes rest
  | votes, some r :: rest =>
    if term < r.term then false
    else
      let votes := if r.granted then votes + 1 else votes
      if quorum ≤ votes then true else countVotes quorum term votes rest

/-- `runFailoverElectionRound`: the term and whether the round was won. `os` has the node's own
observation first; `terms` are the terms it knows of; `vote term` are the answers, the node's own
first. -/
def runFailoverElectionRound (quorum : Nat) (localID : Bytes) (os : List Observation)
    (terms : List Nat) (vote : Nat → Option VoteReply × List (Option VoteReply)) : Nat × Bool :=
  if evaluateFailoverElection os quorum ≠ some localID then (0, false)
  else
    let term := terms.foldl max 0 + 1
    match vote term with
    | (none, _) => (term, false)
    | (some self, peers) =>
      if term < self.term then (term, false)
      else (term, countVotes quorum term (if self.granted then 1 else 0) peers)

/-- Candidate `c` has won `term`: a round of a node that asked itself and other nodes was won by
votes that were granted. -/
def Wins (quorum : Nat) (g : Group M) (term : Nat) (c : Bytes) : Prop :=
  ∃ (self : M) (peers : List M) (os : List Observation) (terms : List Nat)
    (reply : M → Option VoteReply),
    (self :: peers).Nodup ∧
    (∀ p r, reply p = some r → r.granted = true → (p, term, c) ∈ g.grants) ∧
    runFailoverElectionRound quorum c os terms (fun _ => (reply self, peers.map reply)) =
      (term, true)

/-! ## Counting -/

variable {quorum term : Nat}

theorem countVotes_true : ∀ {rs : List (Option VoteReply)} {votes : Nat},
    countVotes quorum term votes rs = true →
      quorum ≤ votes + rs.countP fun r => r.any (·.granted) := by
  intro rs
  induction rs with
  | nil =>
    intro votes h
    cases h
  | cons r rest ih =>
    intro votes h
    cases r with
    | none =>
      have := ih h
      simpa using this
    | some r =>
      rw [countVotes] at h
      split at h
      · cases h
      cases hr : r.granted with
      | false =>
        rw [countP_cons_of_neg (by simp [hr])]
        simp only [hr, Bool.false_eq_true, if_false] at h
        split at h
        · omega
        · exact ih h
      | true =>
        rw [countP_cons_of_pos (by simp [hr])]
        simp only [hr, if_true] at h
        split at h
        · omega
        · have hrest := ih h
          omega

theorem Wins.voters [DecidableEq M] {g : Group M} {c : Bytes} (h : Wins quorum g term c) :
    ∃ vs : Finset M, quorum ≤ vs.card ∧ ∀ v ∈ vs, (v, term, c) ∈ g.grants := by
  obtain ⟨self, peers, os, terms, reply, hnodup, hgrants, hround⟩ := h
  refine ⟨((self :: peers).filter fun p => (reply p).any (·.granted)).toFinset, ?_, fun v hv => ?_⟩
  · rw [toFinset_card_of_nodup (hnodup.filter _), ← countP_eq_length_filter]
    unfold runFailoverElectionRound at hround
    split at hround
    · cases hround
    dsimp only at hround
    split at hround
    · cases hround
    rename_i r ps heq
    obtain ⟨hself, rfl⟩ := Prod.mk.inj heq
    split at hround
    · cases hround
    have hcount := countVotes_true (Prod.mk.inj hround).2
    rw [countP_map] at hcount
    have hsame : peers.countP ((fun r => Option.any (fun x => x.granted) r) ∘ reply) =
        peers.countP fun p => (reply p).any (·.granted) := rfl
    rw [hsame] at hcount
    cases hr : r.granted with
    | false =>
      rw [countP_cons_of_neg (by simp [hself, hr])]
      simpa [hr] using hcount
    | true =>
      rw [countP_cons_of_pos (by simp [hself, hr])]
      simp only [hr, if_true] at hcount
      omega
  · obtain ⟨-, hany⟩ := mem_filter.1 (mem_toFinset.1 hv)
    rcases hr : reply v with _ | r
    · simp [hr] at hany
    · rw [hr] at hany
      exact hgrants v r hr hany

/-! ## One vote per term -/

/-- `u` is `v` or came after it: a later term, or the same term with the vote of `v` kept. -/
def Vote.Extends (u v : Vote) : Prop :=
  v.term < u.term ∨ (u.term = v.term ∧ (v.votedFor = [] ∨ v.votedFor = u.votedFor))

variable {fit : Bool}

namespace Vote

variable {u v x : Vote}

theorem Extends.refl (v : Vote) : v.Extends v := .inr ⟨rfl, .inr rfl⟩

theorem Extends.trans (h : u.Extends v) (h' : v.Extends x) : u.Extends x := by
  rcases h with h | ⟨h, hv⟩
  · rcases h' with h' | ⟨h', -⟩
    · exact .inl (h'.trans h)
    · exact .inl (h' ▸ h)
  · rcases h' with h' | ⟨h', hx⟩
    · exact .inl (h ▸ h')
    · refine .inr ⟨h.trans h', ?_⟩
      rcases hx with hx | hx
      · exact .inl hx
      · rcases hv with hv | hv
        · exact .inl (hx.trans hv)
        · exact .inr (hx.trans hv)

theorem Extends.votedFor_eq {c : Bytes} (h : u.Extends ⟨u.term, c⟩) (hc : c ≠ []) :
    u.votedFor = c := by
  rcases h with h | ⟨-, h⟩
  · exact absurd h (lt_irrefl _)
  · exact (h.resolve_left hc).symm

theorem advance_extends (v : Vote) (term : Nat) : (v.advance term).Extends v := by
  unfold advance
  split
  · exact .inl ‹_›
  · exact .refl v

theorem request_extends (v : Vote) (term : Nat) (c : Bytes) (fit : Bool) :
    (v.request term c fit).vote.Extends v := by
  refine Extends.trans ?_ (v.advance_extends term)
  unfold request
  dsimp only
  split
  · rename_i heligible
    simp only [Bool.and_eq_true, Bool.or_eq_true, beq_iff_eq] at heligible
    exact .inr ⟨rfl, heligible.2⟩
  · exact .refl _

theorem request_eligible {c : Bytes} (h : (v.request term c fit).eligible = true) :
    (v.request term c fit).vote.votedFor = c ∧ c ≠ [] := by
  simp only [request] at h ⊢
  refine ⟨by rw [if_pos h], ?_⟩
  simp only [Bool.and_eq_true, bne_iff_ne] at h
  exact h.1.2

theorem request_unchanged {c : Bytes}
    (hterm : ¬ term < v.term) (hch : (v.request term c fit).changed = false)
    (hel : (v.request term c fit).eligible = true) : v = ⟨term, c⟩ := by
  simp only [request] at hch hel
  rw [Bool.or_eq_false_iff, decide_eq_false_iff_not, hel, Bool.true_and] at hch
  obtain ⟨hnot, hvote⟩ := hch
  have hsame : v.advance term = v := if_neg hnot
  have hterm' : v.term = term := by omega
  cases v
  simp_all

end Vote

/-! ## The invariant -/

namespace Group

variable [DecidableEq M]

/-- What holds after every careful event. -/
structure Safe (g : Group M) : Prop where
  /-- The memory is never behind the file, and the file never behind an older one. -/
  ahead : ∀ v, (g.voters v).memory.Extends (g.voters v).file ∧
    ∀ f ∈ (g.voters v).older, (g.voters v).file.Extends f
  /-- At most one write is under way, and it writes the memory. -/
  writing : ∀ v, (g.voters v).writes = [] ∨ ∃ w, (g.voters v).writes = [w] ∧
    w.vote = (g.voters v).memory ∧ (w.grants = true → w.vote.votedFor ≠ [])
  /-- A granted vote is in every file that a crash may leave, or the file is in a later term. -/
  durable : ∀ v term c, (v, term, c) ∈ g.grants →
    c ≠ [] ∧ ∀ f ∈ (g.voters v).files, f.Extends ⟨term, c⟩
  /-- One candidate per voter and term. -/
  unique : ∀ v term c d, (v, term, c) ∈ g.grants → (v, term, d) ∈ g.grants → c = d

section

variable {g g' : Group M} {v : M}

@[simp] theorem set_self (g : Group M) (v : M) (n : Voter) : (g.set v n).voters v = n := by
  simp [set]

theorem set_ne (g : Group M) {x : M} (n : Voter) (h : x ≠ v) :
    (g.set v n).voters x = g.voters x := by
  simp [set, h]

theorem Safe.set (h : Safe g) {n : Voter}
    (hahead : n.memory.Extends n.file ∧ ∀ f ∈ n.older, n.file.Extends f)
    (hwriting : n.writes = [] ∨ ∃ w, n.writes = [w] ∧ w.vote = n.memory ∧
      (w.grants = true → w.vote.votedFor ≠ []))
    (hfiles : ∀ f ∈ n.files, ∃ f' ∈ (g.voters v).files, f.Extends f') : Safe (g.set v n) := by
  refine ⟨fun x => ?_, fun x => ?_, fun x term c hx => ?_, h.unique⟩
  · by_cases hxv : x = v
    · subst hxv
      rwa [set_self]
    · rw [set_ne _ _ hxv]
      exact h.ahead x
  · by_cases hxv : x = v
    · subst hxv
      rwa [set_self]
    · rw [set_ne _ _ hxv]
      exact h.writing x
  · obtain ⟨hc, hext⟩ := h.durable x term c hx
    refine ⟨hc, ?_⟩
    by_cases hxv : x = v
    · subst hxv
      rw [set_self]
      intro f hf
      obtain ⟨f', hf', hff'⟩ := hfiles f hf
      exact hff'.trans (hext f' hf')
    · rw [set_ne _ _ hxv]
      exact hext

omit [DecidableEq M] in
/-- A vote may be granted that is in the only file a crash may leave. -/
theorem Safe.grant (h : Safe g) {u : Vote} (hc : u.votedFor ≠ [])
    (hfiles : (g.voters v).files = [u]) :
    Safe { g with grants := (v, u.term, u.votedFor) :: g.grants } := by
  -- an earlier vote of the voter in this term is the one in the file
  have hsame : ∀ d, (v, u.term, d) ∈ g.grants → d = u.votedFor := by
    intro d hd
    obtain ⟨hd0, hdext⟩ := h.durable v _ d hd
    exact ((hdext u (by simp [hfiles])).votedFor_eq hd0).symm
  refine ⟨h.ahead, h.writing, fun x term d hx => ?_, fun x term d d' hd hd' => ?_⟩
  · rcases mem_cons.1 hx with heq | hx
    · cases heq
      refine ⟨hc, fun f hf => ?_⟩
      rw [show f = u by simpa [hfiles] using hf]
      exact .refl u
    · exact h.durable x term d hx
  · rcases mem_cons.1 hd with heq | hd
    · cases heq
      rcases mem_cons.1 hd' with heq' | hd'
      · cases heq'
        rfl
      · exact (hsame d' hd').symm
    · rcases mem_cons.1 hd' with heq' | hd'
      · cases heq'
        exact hsame d hd
      · exact h.unique x term d d' hd hd'

theorem Safe.request (h : Safe g) {own : Bool} {c : Bytes}
    (hcare : g.Careful (.request v own term c fit))
    (hs : g.step (.request v own term c fit) = some g') : Safe g' := by
  obtain ⟨hidle, hagain⟩ := hcare
  simp only [step] at hs
  split at hs
  · cases hs
  split at hs
  · cases hs
    exact h
  rename_i hterm
  split at hs
  · cases hs
    refine h.set ⟨(Vote.request_extends _ _ _ _).trans (h.ahead v).1, (h.ahead v).2⟩
      (.inr ⟨_, by rw [hidle]; rfl, rfl, fun hel => ?_⟩) fun f hf => ⟨f, hf, .refl f⟩
    obtain ⟨hvoted, hc⟩ := Vote.request_eligible hel
    exact hvoted.symm ▸ hc
  rename_i hch
  split at hs
  · rename_i hel
    cases hs
    have hmem := Vote.request_unchanged hterm (by simpa using hch) hel
    have hfiles := hagain hmem
    rw [hmem] at hfiles
    exact h.grant (Vote.request_eligible hel).2 hfiles
  · cases hs
    exact h

theorem Safe.finish (h : Safe g) {i : Nat} {o : Outcome}
    (hs : g.step (.finish v i o) = some g') : Safe g' := by
  simp only [step] at hs
  split at hs
  · cases hs
  rename_i w hw
  -- the write that ends is the only one
  obtain ⟨rfl, heq, hvote, hgrants⟩ : i = 0 ∧ (g.voters v).writes = [w] ∧
      w.vote = (g.voters v).memory ∧ (w.grants = true → w.vote.votedFor ≠ []) := by
    rcases h.writing v with hnone | ⟨w', hone, hrest⟩
    · rw [hnone] at hw
      cases hw
    · rw [hone, List.getElem?_singleton] at hw
      split_ifs at hw with hi
      cases hw
      exact ⟨hi, hone, hrest⟩
  have herase : (g.voters v).writes.eraseIdx 0 = [] := by
    rw [heq]
    rfl
  split at hs
  · cases hs
    exact h.set (h.ahead v) (.inl herase) fun f hf => ⟨f, hf, .refl f⟩
  · -- the file has the memory now, and the one it has replaced may come back
    cases hs
    refine h.set ⟨hvote ▸ .refl _, fun f hf => ?_⟩ (.inl herase) fun f hf => ?_
    · rw [hvote]
      rcases mem_cons.1 hf with rfl | hf
      · exact (h.ahead v).1
      · exact (h.ahead v).1.trans ((h.ahead v).2 f hf)
    · rcases mem_cons.1 hf with rfl | hf
      · exact ⟨_, mem_cons_self, hvote ▸ (h.ahead v).1⟩
      · exact ⟨f, hf, .refl f⟩
  · -- the file has the memory, and no other can come back
    have hwritten :
        Safe (g.set v ⟨(g.voters v).memory, w.vote, [], (g.voters v).writes.eraseIdx 0⟩) :=
      h.set ⟨hvote ▸ .refl _, by simp⟩ (.inl herase) fun f hf => by
        rw [show f = w.vote by simpa [Voter.files] using hf, hvote]
        exact ⟨_, mem_cons_self, (h.ahead v).1⟩
    split at hs
    · rename_i hgr
      cases hs
      exact hwritten.grant (hgrants hgr) (by rw [set_self]; rfl)
    · cases hs
      exact hwritten

theorem Safe.crash (h : Safe g) {left : Vote} (hs : g.step (.crash v left) = some g') :
    Safe g' := by
  simp only [step] at hs
  split at hs
  · cases hs
  rename_i hleft
  have hleft : left ∈ (g.voters v).files := not_not.1 hleft
  cases hs
  by_cases hsame : left = (g.voters v).file
  · subst hsame
    refine h.set ⟨.refl _, ?_⟩ (.inl rfl) fun f hf => ⟨f, by simpa [Voter.files] using hf, .refl f⟩
    simpa using (h.ahead v).2
  · refine h.set ⟨.refl _, by simp [hsame]⟩ (.inl rfl) fun f hf => ?_
    rw [show f = left by simpa [Voter.files, hsame] using hf]
    exact ⟨left, hleft, .refl left⟩

theorem Safe.step (g : Group M) (e : ElectionEvent M) (g' : Group M) (h : Safe g)
    (hcare : g.Careful e) (hs : g.step e = some g') : Safe g' := by
  cases e with
  | request v own term c fit => exact h.request hcare hs
  | finish v i o => exact h.finish hs
  | crash v left => exact h.crash hs

omit [DecidableEq M] in
theorem Started.safe (h : Started g) : Safe g := by
  have hloaded : ∀ v, (g.voters v).file = (g.voters v).memory ∧ (g.voters v).older = [] :=
    fun v => cons.inj (h.loaded v)
  refine ⟨fun v => ⟨(hloaded v).1 ▸ .refl _, by simp [(hloaded v).2]⟩, fun v => .inl (h.idle v),
    fun v term c hx => ?_, fun v term c d hx => ?_⟩
  · rw [h.grants] at hx
    cases hx
  · rw [h.grants] at hx
    cases hx

end

end Group

/-! ## Three nodes -/

instance neZeroThree : NeZero 3 := inferInstance

namespace ThreeVoters

def a : Bytes := [97]
def b : Bytes := [98]
def c : Bytes := [99]

def started : Group (Fin 3) := ⟨fun _ => ⟨⟨4, []⟩, ⟨4, []⟩, [], []⟩, []⟩

theorem started_ok : started.Started := ⟨fun _ => rfl, fun _ => rfl, rfl⟩

end ThreeVoters

namespace Group

end Group

end Failover
end SnugKV
