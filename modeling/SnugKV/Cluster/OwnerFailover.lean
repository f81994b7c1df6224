import SnugKV.Cluster.Control

/-!
# Ownership failover — a promoted replica takes over its shard's slots

The promoted node asks every other slot owner to hand the old owner's slots to it and changes its
own tables last. The request carries the digest of the promoted node's table; the receiver
compares it with its own before it looks at what is left to do.

* `convergeClusterFailoverOwnership` — the operation on the promoted node;
* `Convergent` — the tables with which it succeeds once every node answers;
* a receiver that has applied the change no longer has the digest of a promoted node that has
  not, so the operation cannot be repeated after part of the owners accepted it.
-/

namespace SnugKV
namespace Cluster

open Lib List Net

variable {V : Type}

/-! ## The operation -/

def Node.clusterFailoverShardMembers (n : Node V) : List Addr :=
  if n.advertiseAddr ≠ [] then n.advertiseAddr :: n.peers else n.peers

/-- The loop of `clusterFailoverCurrentOwner` over the slot owners. -/
def currentOwnerLoop (members : List Addr) : List Addr → Addr → Except ControlError Addr
  | [], owner => .ok owner
  | a :: rest, owner =>
    if a = [] ∨ a ∉ members then currentOwnerLoop members rest owner
    else if owner = [] then currentOwnerLoop members rest a
    else if owner ≠ a then .error .ambiguous
    else currentOwnerLoop members rest owner

/-- The one member of the node's shard that owns slots, or the empty address. -/
def Node.clusterFailoverCurrentOwner (n : Node V) : Except ControlError Addr :=
  currentOwnerLoop n.clusterFailoverShardMembers
    ((List.finRange slotCount).map n.topology.owners) []

/-- The owners that are asked, in the order they are asked in. -/
def failoverReceivers (t : Topology) (old : Addr) : List Addr :=
  (clusterOwnersFromOwners t.owners).filter fun a => a ≠ t.nodeAddr ∧ a ≠ old

section

variable (sha1 : Bytes → Bytes)

/-- `replaceClusterOwner`: the change without a fence. -/
def Node.replaceClusterOwner (old new : Addr) (saved : Bool) (n : Node V) :
    Except ControlError Topology :=
  replaceClusterOwnerFenced sha1 saved old new [] n.topology

/-- The part of `convergeClusterFailoverOwnership` under `clusterRebalanceMu`. -/
def convergeLocked (c : Addr) (n : Node V) : Action (Net V) ControlError Unit :=
  let state := n.topology
  if !state.enabled then pure ()
  else if n.advertiseAddr = [] then pure ()
  else if state.nodeAddr ≠ n.advertiseAddr then Action.fail .addrMismatch
  else
    match n.clusterFailoverCurrentOwner with
    | .error e => Action.fail e
    | .ok old =>
      if old = [] ∨ old = state.nodeAddr then pure ()
      else if state.Transitioning then Action.fail .transitions
      else do
        sendAll sha1 (.failoverOwner old state.nodeAddr (clusterOwnershipDigest sha1 state))
          (failoverReceivers state old)
        runLocal c (Node.replaceClusterOwner sha1 old state.nodeAddr)

def convergeClusterFailoverOwnership (c : Addr) : Action (Net V) ControlError Unit := fun w =>
  if (w.nodes c).rebalancing then (.error .busy, w)
  else
    match convergeLocked sha1 c (w.nodes c) (w.setRebalancing c true) with
    | (out, w') => (out, w'.setRebalancing c false)

end

/-! ## When the operation sends its requests -/

/-- The checks the promoted node makes before it asks anyone. -/
structure Admitted (n : Node V) (old : Addr) : Prop where
  enabled : n.topology.enabled = true
  advertised : n.advertiseAddr ≠ []
  addr : n.topology.nodeAddr = n.advertiseAddr
  owner : n.clusterFailoverCurrentOwner = .ok old
  nonempty : old ≠ []
  ne : old ≠ n.topology.nodeAddr
  settled : ¬ n.topology.Transitioning

def failoverRequest (sha1 : Bytes → Bytes) (n : Node V) (old : Addr) : Request :=
  .failoverOwner old n.topology.nodeAddr (clusterOwnershipDigest sha1 n.topology)

section

variable {sha1 : Bytes → Bytes} {c old : Addr} {n : Node V} {w w' : Net V}

theorem convergeLocked_of_admitted (h : Admitted n old) :
    convergeLocked sha1 c n = (do
      sendAll sha1 (failoverRequest sha1 n old) (failoverReceivers n.topology old)
      runLocal c (Node.replaceClusterOwner sha1 old n.topology.nodeAddr)) := by
  have hskip : ¬ (old = [] ∨ old = n.topology.nodeAddr) := by
    have hold := h.nonempty
    have hne := h.ne
    tauto
  simp only [convergeLocked]
  rw [if_neg (by simp [h.enabled]), if_neg h.advertised, if_neg (not_not.2 h.addr), h.owner]
  dsimp only
  rw [if_neg hskip, if_neg h.settled, failoverRequest]

theorem convergeLocked_cases (sha1 : Bytes → Bytes) (c : Addr) (n : Node V) :
    (∃ old, Admitted n old) ∨ (∀ w, convergeLocked sha1 c n w = (.ok (), w)) ∨
      ∃ e, ∀ w, convergeLocked sha1 c n w = (.error e, w) := by
  by_cases h1 : n.topology.enabled = true
  swap
  · exact .inr (.inl fun w => by simp [convergeLocked, h1]; rfl)
  by_cases h2 : n.advertiseAddr = []
  · exact .inr (.inl fun w => by simp [convergeLocked, h1, h2]; rfl)
  by_cases h3 : n.topology.nodeAddr = n.advertiseAddr
  swap
  · exact .inr (.inr ⟨.addrMismatch, fun w => by simp [convergeLocked, h1, h2, h3]; rfl⟩)
  rcases h4 : n.clusterFailoverCurrentOwner with e | old
  · exact .inr (.inr ⟨e, fun w => by simp [convergeLocked, h1, h2, h3, h4]; rfl⟩)
  by_cases h5 : old = [] ∨ old = n.topology.nodeAddr
  · exact .inr (.inl fun w => by
      rw [h3] at h5
      simp [convergeLocked, h1, h2, h3, h4, h5]
      rfl)
  by_cases h6 : n.topology.Transitioning
  · exact .inr (.inr ⟨.transitions, fun w => by
      rw [h3] at h5
      simp [convergeLocked, h1, h2, h3, h4, h5, h6]
      rfl⟩)
  rw [not_or] at h5
  exact .inl ⟨old, h1, h2, h3, h4, h5.1, h5.2, h6⟩

/-! ## The receivers -/

theorem nodup_failoverReceivers (t : Topology) (old : Addr) : (failoverReceivers t old).Nodup :=
  (nodup_sortedClusterKnownNodes _).filter _

theorem Node.Took.failoverOwner {new : Addr} {digest : Bytes} {n' : Node V}
    (h : n.Took sha1 (.failoverOwner old new digest) n') :
    n.rebalancing = false ∧ TakesOwner sha1 old new digest n.topology ∧
      n'.topology.owners = reassign old new n.topology.owners := by
  obtain ⟨saved, t, ht, rfl⟩ := h
  simp only [Node.handle] at ht
  split at ht
  · cases ht
  · rename_i hidle
    exact ⟨by simpa using hidle, replaceClusterOwnerFenced_ok ht⟩

/-- While the operation runs, the promoted node itself takes no request. -/
theorem setRebalancing_not_took {r : Request} {b : Addr}
    (h : ((w.setRebalancing c true).nodes b).Took sha1 r (w'.nodes b))
    (hr : ∃ old new digest, r = .failoverOwner old new digest) : b ≠ c := by
  rintro rfl
  obtain ⟨old, new, digest, rfl⟩ := hr
  have hidle := h.failoverOwner.1
  rw [setRebalancing, update_self] at hidle
  cases hidle

end

/-! ## Repeating the operation -/

/-- The tables with which the operation succeeds once every node answers: the promoted node
passes its own checks, and every receiver still has the promoted node's ownership digest. -/
structure Convergent (sha1 : Bytes → Bytes) (w : Net V) (c old : Addr) : Prop where
  idle : (w.nodes c).rebalancing = false
  admitted : Admitted (w.nodes c) old
  self : TakesOwner sha1 old (w.nodes c).topology.nodeAddr [] (w.nodes c).topology
  receivers : ∀ a ∈ failoverReceivers (w.nodes c).topology old,
    a ≠ c ∧ dialable a = true ∧ (w.nodes a).rebalancing = false ∧
      TakesOwner sha1 old (w.nodes c).topology.nodeAddr
        (clusterOwnershipDigest sha1 (w.nodes c).topology) (w.nodes a).topology

/-- The promoted node and every owner it asked have exactly the old owner's slots of `w₀`
reassigned. -/
def Reassigned (c old : Addr) (w₀ w : Net V) : Prop :=
  ∀ a ∈ c :: failoverReceivers (w₀.nodes c).topology old,
    (w.nodes a).topology.owners =
      reassign old (w₀.nodes c).topology.nodeAddr (w₀.nodes a).topology.owners

section

variable {sha1 : Bytes → Bytes} {c old : Addr} {w w' : Net V} {e : ControlError}

theorem setRebalancing_topology (w : Net V) (c : Addr) (b : Bool) (a : Addr) :
    ((w.setRebalancing c b).nodes a).topology = (w.nodes a).topology := by
  by_cases ha : a = c
  · subst ha
    rw [setRebalancing, update_self]
  · rw [setRebalancing, update_ne _ _ ha]

theorem convergent_reachable :
    Convergent sha1 w.reachable c old ↔ Convergent sha1 w c old :=
  ⟨fun h => ⟨h.idle, h.admitted, h.self, h.receivers⟩,
    fun h => ⟨h.idle, h.admitted, h.self, h.receivers⟩⟩

theorem converge_eq_ok (h : convergeClusterFailoverOwnership sha1 c w = (.ok (), w')) :
    (w.nodes c).rebalancing = false ∧ ∃ w₁,
      convergeLocked sha1 c (w.nodes c) (w.setRebalancing c true) = (.ok (), w₁) ∧
        w' = w₁.setRebalancing c false := by
  unfold convergeClusterFailoverOwnership at h
  split at h
  · cases h
  · rename_i hidle
    rcases hl : convergeLocked sha1 c (w.nodes c) (w.setRebalancing c true) with ⟨out, w₁⟩
    rw [hl] at h
    cases h
    exact ⟨by simpa using hidle, w₁, rfl, rfl⟩

theorem converge_ok (hadm : Admitted (w.nodes c) old)
    (h : convergeClusterFailoverOwnership sha1 c w = (.ok (), w')) :
    Convergent sha1 w c old ∧ Reassigned c old w w' := by
  obtain ⟨hidle, w₂, hl, rfl⟩ := converge_eq_ok h
  rw [convergeLocked_of_admitted hadm] at hl
  obtain ⟨⟨⟩, w₁, hsend, hlocal⟩ := Action.bind_eq_ok.1 hl
  obtain ⟨hrecv, hout⟩ := sendAll_ok (nodup_failoverReceivers _ _) hsend
  obtain ⟨⟨saved, t, ht, hself⟩, hothers⟩ := runLocal_ok hlocal
  -- the promoted node is not among the receivers: it refuses requests while it runs
  have hne : ∀ a ∈ failoverReceivers (w.nodes c).topology old, a ≠ c := fun a ha =>
    setRebalancing_not_took (hrecv a ha).2 ⟨_, _, _, rfl⟩
  have hc : c ∉ failoverReceivers (w.nodes c).topology old := fun hmem => hne c hmem rfl
  have hsame : ∀ a, a ≠ c → (w.setRebalancing c true).nodes a = w.nodes a := fun a ha => by
    rw [setRebalancing, update_ne _ _ ha]
  rw [hout c hc] at ht
  obtain ⟨htakes, howners⟩ := replaceClusterOwnerFenced_ok ht
  rw [setRebalancing_topology] at htakes howners
  refine ⟨⟨hidle, hadm, htakes, fun a ha => ?_⟩, fun a ha => ?_⟩
  · obtain ⟨hdial, htook⟩ := hrecv a ha
    rw [hsame a (hne a ha)] at htook
    obtain ⟨hfree, hpeer, -⟩ := htook.failoverOwner
    exact ⟨hne a ha, hdial, hfree, hpeer⟩
  · rw [setRebalancing_topology]
    rcases mem_cons.1 ha with rfl | ha
    · rw [hself]
      exact howners
    · rw [hothers a (hne a ha)]
      have htook := (hrecv a ha).2
      rw [hsame a (hne a ha)] at htook
      exact htook.failoverOwner.2.2

theorem converge_of_convergent (hw : w.fates = []) (h : Convergent sha1 w c old) :
    ∃ w', convergeClusterFailoverOwnership sha1 c w = (.ok (), w') := by
  have hc : c ∉ failoverReceivers (w.nodes c).topology old := fun hmem => (h.receivers c hmem).1 rfl
  have haccept : ∀ a ∈ failoverReceivers (w.nodes c).topology old, dialable a = true ∧
      ∃ t, ((w.setRebalancing c true).nodes a).handle sha1 true
        (failoverRequest sha1 (w.nodes c) old) = .ok t := by
    intro a ha
    obtain ⟨hne, hdial, hfree, htakes⟩ := h.receivers a ha
    obtain ⟨t, ht⟩ := replaceClusterOwnerFenced_of_takes htakes
    refine ⟨hdial, t, ?_⟩
    rw [setRebalancing, update_ne _ _ hne]
    simp only [failoverRequest, Node.handle, hfree, Bool.false_eq_true, if_false]
    exact ht
  have hlocked : (w.setRebalancing c true).fates = [] := hw
  obtain ⟨w₁, hsend, hfates⟩ := sendAll_of_reachable (nodup_failoverReceivers _ _) hlocked haccept
  have hself : (w₁.nodes c).topology = (w.nodes c).topology := by
    rw [(sendAll_ok (nodup_failoverReceivers _ _) hsend).2 c hc, setRebalancing_topology]
  obtain ⟨t, ht⟩ := replaceClusterOwnerFenced_of_takes h.self
  have hlocal := runLocal_of_delivered (f := Node.replaceClusterOwner sha1 old
    (w.nodes c).topology.nodeAddr) (nextFate_of_nil hfates)
    (by rw [Node.replaceClusterOwner, hself]; exact ht)
  unfold convergeClusterFailoverOwnership
  rw [if_neg (by simp [h.idle]), convergeLocked_of_admitted h.admitted, Action.bind_ok hsend,
    hlocal]
  exact ⟨_, rfl⟩

/-- A failed attempt leaves the promoted node as it was; every other node is untouched or has
carried out the request. -/
theorem converge_failed {w₀ w₁ : Net V}
    (h : convergeClusterFailoverOwnership sha1 c w₀ = (.error e, w₁)) :
    w₁.nodes c = w₀.nodes c ∧ ∀ a, w₁.nodes a = w₀.nodes a ∨ ∃ old, Admitted (w₀.nodes c) old ∧
      (w₀.nodes a).Took sha1 (failoverRequest sha1 (w₀.nodes c) old) (w₁.nodes a) := by
  unfold convergeClusterFailoverOwnership at h
  split at h
  · cases h
    exact ⟨rfl, fun a => .inl rfl⟩
  rename_i hidle
  rcases hl : convergeLocked sha1 c (w₀.nodes c) (w₀.setRebalancing c true) with ⟨out, w₂⟩
  rw [hl] at h
  cases h
  -- taking the lock and giving it back leaves the node as it was
  have hback : ∀ w : Net V, w.nodes c = (w₀.setRebalancing c true).nodes c →
      (w.setRebalancing c false).nodes c = w₀.nodes c := by
    intro w hw
    rw [setRebalancing, update_self, hw, setRebalancing, update_self]
    simp only [Bool.not_eq_true] at hidle
    rw [← hidle]
  have hother : ∀ (w : Net V) a, a ≠ c → (w.setRebalancing c false).nodes a = w.nodes a :=
    fun w a ha => by rw [setRebalancing, update_ne _ _ ha]
  have hbegun : ∀ a, a ≠ c → (w₀.setRebalancing c true).nodes a = w₀.nodes a :=
    fun a ha => by rw [setRebalancing, update_ne _ _ ha]
  rcases convergeLocked_cases sha1 c (w₀.nodes c) with ⟨old, hadm⟩ | hskip | ⟨e', hfail⟩
  · rw [convergeLocked_of_admitted hadm] at hl
    -- all that can have changed the nodes is the round of requests
    obtain ⟨w₃, out', hsend, hnodes⟩ : ∃ w₃ out', sendAll sha1
        (failoverRequest sha1 (w₀.nodes c) old) (failoverReceivers (w₀.nodes c).topology old)
        (w₀.setRebalancing c true) = (out', w₃) ∧ w₂.nodes = w₃.nodes := by
      rcases hs : sendAll sha1 (failoverRequest sha1 (w₀.nodes c) old)
        (failoverReceivers (w₀.nodes c).topology old) (w₀.setRebalancing c true)
        with ⟨e₁ | ⟨⟩, w₃⟩
      · rw [Action.bind_error hs] at hl
        cases hl
        exact ⟨w₂, _, rfl, rfl⟩
      · rw [Action.bind_ok hs] at hl
        exact ⟨w₃, _, rfl, runLocal_error hl⟩
    have heff := sendAll_effect (nodup_failoverReceivers _ _) hsend
    have hc : w₂.nodes c = (w₀.setRebalancing c true).nodes c := by
      rw [hnodes]
      rcases heff c with hsame | ⟨-, htook⟩
      · exact hsame
      · exact absurd rfl (setRebalancing_not_took htook ⟨_, _, _, rfl⟩)
    refine ⟨hback w₂ hc, fun a => ?_⟩
    by_cases ha : a = c
    · subst ha
      exact .inl (hback w₂ hc)
    · rw [hother w₂ a ha, hnodes, ← hbegun a ha]
      exact (heff a).imp_right fun hin => ⟨old, hadm, hin.2⟩
  · rw [hskip] at hl
    cases hl
  · rw [hfail] at hl
    cases hl
    refine ⟨hback _ rfl, fun a => .inl ?_⟩
    by_cases ha : a = c
    · subst ha
      exact hback _ rfl
    · rw [hother _ a ha, hbegun a ha]

/-- After a failed attempt, the repeated one succeeds and leaves the promoted node and every
owner it asks with exactly the old owner's slots reassigned, if and only if every receiver still
takes the request: it has the promoted node's ownership digest, so it has not applied the change. -/
theorem converge_retry_iff (sha1 : Bytes → Bytes) (c : Addr) (e : ControlError) (w₀ w₁ : Net V)
    (h : convergeClusterFailoverOwnership sha1 c w₀ = (.error e, w₁)) :
    (∃ old w₂, Admitted (w₀.nodes c) old ∧
      convergeClusterFailoverOwnership sha1 c w₁.reachable = (.ok (), w₂) ∧
        Reassigned c old w₀ w₂) ↔
      ∃ old, Convergent sha1 w₁ c old := by
  obtain ⟨hc, heff⟩ := converge_failed h
  constructor
  · rintro ⟨old, w₂, hadm, hok, -⟩
    rw [← hc] at hadm
    have hconv := (converge_ok (w := w₁.reachable) hadm hok).1
    exact ⟨old, convergent_reachable.1 hconv⟩
  · rintro ⟨old, hconv⟩
    have hconv' := convergent_reachable.2 hconv
    obtain ⟨w₂, hok⟩ := converge_of_convergent rfl hconv'
    refine ⟨old, w₂, hc ▸ hconv.admitted, hok, fun a ha => ?_⟩
    have hre := (converge_ok hconv'.admitted hok).2
    rw [← hc] at ha ⊢
    rw [hre a ha]
    rcases heff a with hsame | ⟨old', hadm, htook⟩
    · rw [Net.reachable_nodes, hsame]
    · -- the slots of a node that took the request were reassigned by the failed attempt
      have hold : old' = old := by
        have h1 := hadm.owner.symm.trans (hc ▸ hconv.admitted.owner)
        exact Except.ok.inj h1
      subst hold
      have howners := htook.failoverOwner.2.2
      rw [← hc] at howners
      rw [Net.reachable_nodes, howners, reassign_reassign _ hconv.admitted.ne]

end

/-! ## A group of three shards

`n` was promoted in the shard of `a`; `b` and `c` own the other shards' slots. -/

theorem currentOwnerLoop_eq {members : List Addr} {a : Addr} (hne : a ≠ []) (ha : a ∈ members) :
    ∀ {l : List Addr} {owner : Addr}, (∀ x ∈ l, x ∈ members → x = [] ∨ x = a) →
      (owner = a ∨ owner = [] ∧ a ∈ l) → currentOwnerLoop members l owner = .ok a := by
  intro l
  induction l with
  | nil =>
    rintro owner - (rfl | ⟨-, hmem⟩)
    · rfl
    · cases hmem
  | cons x rest ih =>
    intro owner hl howner
    have hrest : ∀ y ∈ rest, y ∈ members → y = [] ∨ y = a := fun y hy => hl y (mem_cons_of_mem _ hy)
    by_cases hx : x = [] ∨ x ∉ members
    · rw [currentOwnerLoop, if_pos hx]
      refine ih hrest (howner.imp_right fun h => ⟨h.1, ?_⟩)
      refine (mem_cons.1 h.2).resolve_left ?_
      rintro rfl
      exact hx.elim hne fun hout => hout ha
    · rw [not_or, not_not] at hx
      obtain rfl : x = a := (hl x mem_cons_self hx.2).resolve_left hx.1
      rw [currentOwnerLoop, if_neg (by tauto)]
      rcases howner with rfl | ⟨rfl, -⟩
      · rw [if_neg hx.1, if_neg (by simp)]
        exact ih hrest (.inl rfl)
      · exact ih hrest (.inl rfl)

namespace ThreeShards

def a : Addr := [97, 58, 49]
def b : Addr := [98, 58, 49]
def c : Addr := [99, 58, 49]
def n : Addr := [110, 110, 58, 49]

/-- Slot 0 belongs to `a`, slot 1 to `b`, slot 2 to `c`. -/
def owners : SlotTable := fun slot =>
  if slot.val = 0 then a else if slot.val = 1 then b else if slot.val = 2 then c else []

def topology (addr : Addr) : Topology :=
  { enabled := true, nodeAddr := addr, epoch := 0, knownNodes := [a, b, c, n], owners := owners,
    migrating := fun _ => [], importing := fun _ => [] }

def node (addr : Addr) : Node Unit :=
  { topology := topology addr, advertiseAddr := addr, peers := if addr = n then [a] else [],
    store := [], rebalancing := false }

def net (fates : List Fate) : Net Unit := ⟨node, fates⟩

theorem settled (addr : Addr) : ¬ (topology addr).Transitioning := by
  rintro ⟨slot, h | h⟩ <;> exact h rfl

theorem owners_cases (slot : Slot) :
    owners slot = a ∨ owners slot = b ∨ owners slot = c ∨ owners slot = [] := by
  unfold owners
  split_ifs <;> simp

theorem receivers : failoverReceivers (topology n) a = [b, c] := by
  have hmem : ∀ x, x ∈ clusterOwnersFromOwners owners ↔ x ∈ [a, b, c] := by
    intro x
    rw [mem_clusterOwnersFromOwners]
    constructor
    · rintro ⟨⟨slot, rfl⟩, hne⟩
      have := owners_cases slot
      simp only [mem_cons, not_mem_nil, or_false]
      tauto
    · intro hx
      simp only [mem_cons, not_mem_nil, or_false] at hx
      rcases hx with rfl | rfl | rfl
      · exact ⟨⟨⟨0, by decide⟩, rfl⟩, by decide⟩
      · exact ⟨⟨⟨1, by decide⟩, rfl⟩, by decide⟩
      · exact ⟨⟨⟨2, by decide⟩, rfl⟩, by decide⟩
  have hperm : (clusterOwnersFromOwners owners).Perm [a, b, c] :=
    (perm_ext_iff_of_nodup (nodup_sortedClusterKnownNodes _) (by decide)).2 hmem
  have hlist : clusterOwnersFromOwners owners = [a, b, c] :=
    hperm.eq_of_pairwise' (pairwise_insertionSort _ _) (by decide)
  rw [failoverReceivers]
  change (clusterOwnersFromOwners owners).filter _ = _
  rw [hlist]
  decide

theorem admitted : Admitted (node n) a := by
  have howner : (node n).clusterFailoverCurrentOwner = .ok a := by
    refine currentOwnerLoop_eq (by decide) (by decide) (fun x hx hmem => ?_) (.inr ⟨rfl, ?_⟩)
    · obtain ⟨slot, -, rfl⟩ := mem_map.1 hx
      have hm : owners slot ∈ [n, a] := hmem
      rcases owners_cases slot with h | h | h | h
      · exact .inr h
      · rw [h] at hm
        exact absurd hm (by decide)
      · rw [h] at hm
        exact absurd hm (by decide)
      · exact .inl h
    · exact mem_map.2 ⟨⟨0, by decide⟩, mem_finRange _, rfl⟩
  exact ⟨rfl, by decide, rfl, howner, by decide, by decide, settled n⟩

theorem takes (sha1 : Bytes → Bytes) (addr : Addr) {expected : Bytes}
    (h : expected = [] ∨ clusterOwnershipDigest sha1 (topology n) = expected) :
    TakesOwner sha1 a n expected (topology addr) :=
  ⟨by decide, by decide, by decide, rfl, settled addr, h, .inl ⟨⟨0, by decide⟩, rfl⟩⟩

/-- The request to `b` and `c`, with the promoted node's table in the fence. -/
def request (sha1 : Bytes → Bytes) : Request := failoverRequest sha1 (node n) a

theorem node_handle (sha1 : Bytes → Bytes) (addr : Addr) (saved : Bool) :
    (node addr).handle sha1 saved (request sha1) = replaceClusterOwnerFenced sha1 saved a n
      (clusterOwnershipDigest sha1 (topology n)) (topology addr) := by
  simp only [request, failoverRequest, Node.handle]
  exact if_neg (by simp [node])

theorem converge_eq (sha1 : Bytes → Bytes) (fates : List Fate) {out : Except ControlError Unit}
    {w : Net Unit} (h : (sendAll sha1 (request sha1) [b, c] >>= fun _ =>
      runLocal n (Node.replaceClusterOwner sha1 a n)) ((net fates).setRebalancing n true) =
        (out, w)) :
    convergeClusterFailoverOwnership sha1 n (net fates) = (out, w.setRebalancing n false) := by
  unfold convergeClusterFailoverOwnership
  have hl := @convergeLocked_of_admitted Unit sha1 n _ _ admitted
  rw [show (node n).topology = topology n from rfl, receivers] at hl
  rw [if_neg (by simp [net, node]), show (net fates).nodes n = node n from rfl, hl]
  exact congrArg (fun p => (p.1, p.2.setRebalancing n false)) h

def afterLoss : Net Unit := ((net []).setRebalancing n true).setRebalancing n false

theorem first_lost (sha1 : Bytes → Bytes) :
    convergeClusterFailoverOwnership sha1 n (net [.lost]) = (.error .noAnswer, afterLoss) := by
  refine converge_eq sha1 [.lost] ?_
  have hsend : sendClusterControlCommand sha1 b (request sha1)
      ((net [.lost]).setRebalancing n true) =
        (.error .noAnswer, (net []).setRebalancing n true) := by
    unfold sendClusterControlCommand
    rfl
  exact Action.bind_error (Action.bind_error hsend)

theorem afterLoss_nodes (addr : Addr) : afterLoss.nodes addr = node addr := by
  by_cases h : addr = n
  · subst h
    rfl
  · rw [afterLoss, setRebalancing, update_ne _ _ h, setRebalancing, update_ne _ _ h]
    rfl

/-- The network once `b` has accepted the change and the request to `c` was lost. -/
def afterPart (t : Topology) : Net Unit :=
  (((net []).setRebalancing n true).setTopology b t).setRebalancing n false

theorem second_lost (sha1 : Bytes → Bytes) : ∃ t, t.owners = reassign a n owners ∧
    convergeClusterFailoverOwnership sha1 n (net [.delivered, .lost]) =
      (.error .noAnswer, afterPart t) := by
  obtain ⟨t, ht⟩ := replaceClusterOwnerFenced_of_takes
    (takes sha1 b (.inr (rfl : clusterOwnershipDigest sha1 (topology n) = _)))
  refine ⟨t, (replaceClusterOwnerFenced_ok ht).2, converge_eq sha1 _ ?_⟩
  have hnode : ((net [.lost]).setRebalancing n true).nodes b = node b :=
    update_ne _ _ (by decide)
  have hb : sendClusterControlCommand sha1 b (request sha1)
      ((net [.delivered, .lost]).setRebalancing n true) =
        (.ok (), ((net [.lost]).setRebalancing n true).setTopology b t) :=
    sendClusterControlCommand_of_delivered rfl (by decide)
      ((hnode ▸ node_handle sha1 b true).trans ht)
  have hc : sendClusterControlCommand sha1 c (request sha1)
      (((net [.lost]).setRebalancing n true).setTopology b t) =
        (.error .noAnswer, ((net []).setRebalancing n true).setTopology b t) := by
    unfold sendClusterControlCommand
    rfl
  refine Action.bind_error ?_
  rw [sendAll, Action.bind_ok hb]
  exact Action.bind_error hc

end ThreeShards

open ThreeShards in
/-- A request that is lost before anyone accepted the change can be repeated. -/
theorem converge_retry_lost : ∃ w₁,
    convergeClusterFailoverOwnership id n (net [.lost]) = (.error .noAnswer, w₁) ∧
      ∃ old w₂, Admitted ((net [.lost]).nodes n) old ∧
        convergeClusterFailoverOwnership id n w₁.reachable = (.ok (), w₂) ∧
          Reassigned n old (net [.lost]) w₂ := by
  refine ⟨afterLoss, first_lost id,
    (converge_retry_iff id n .noAnswer (net [.lost]) afterLoss (first_lost id)).2 ⟨a, ?_⟩⟩
  refine ⟨by rw [afterLoss_nodes]; rfl, by rw [afterLoss_nodes]; exact admitted, ?_, ?_⟩
  · rw [afterLoss_nodes]
    exact takes id n (.inl rfl)
  · rw [afterLoss_nodes, show (node n).topology = topology n from rfl, receivers]
    intro x hx
    rw [afterLoss_nodes]
    refine ⟨?_, ?_, rfl, takes id x (.inr rfl)⟩
    · rintro rfl
      exact absurd hx (by decide)
    · simp only [mem_cons, not_mem_nil, or_false] at hx
      rcases hx with rfl | rfl <;> decide

namespace ThreeShards

theorem hexText_append (x y : Bytes) : hexText (x ++ y) = hexText x ++ hexText y := flatMap_append

theorem ownershipText_cons (table : SlotTable) : ∃ rest,
    ownershipText table = ownershipLine ⟨0, by decide⟩ (table ⟨0, by decide⟩) ++ rest := by
  obtain ⟨l, hl⟩ : ∃ l, finRange slotCount = ⟨0, by decide⟩ :: l := ⟨_, finRange_succ⟩
  rw [ownershipText, hl, flatMap_cons]
  exact ⟨_, rfl⟩

theorem digest_ne (t : Topology) (h : t.owners = reassign a n owners) :
    clusterOwnershipDigest id t ≠ clusterOwnershipDigest id (topology n) := by
  obtain ⟨r₁, h₁⟩ := ownershipText_cons owners
  obtain ⟨r₂, h₂⟩ := ownershipText_cons (reassign a n owners)
  intro heq
  unfold clusterOwnershipDigest at heq
  rw [h, id, id, h₂, show (topology n).owners = owners from rfl, h₁, hexText_append,
    hexText_append] at heq
  have htake := congrArg (take 10) heq
  rw [take_append_of_le_length (by decide), take_append_of_le_length (by decide)] at htake
  exact absurd htake (by decide)

end ThreeShards

open ThreeShards in
/-- `b` accepts the change and the request to `c` is lost: the attempt fails, and although every
node answers from then on, the repeated attempt fails as well. -/
theorem converge_retry_refused : ∃ w₁,
    convergeClusterFailoverOwnership id n (net [.delivered, .lost]) = (.error .noAnswer, w₁) ∧
      (w₁.nodes b).topology.owners = reassign a n owners ∧
        ∀ w₂, convergeClusterFailoverOwnership id n w₁.reachable ≠ (.ok (), w₂) := by
  obtain ⟨t, howners, hfail⟩ := second_lost id
  have hb : (afterPart t).nodes b = { node b with topology := t } := by
    rw [afterPart, Net.setRebalancing, Net.update_ne _ _ (by decide), Net.setTopology,
      Net.update_self, Net.setRebalancing, Net.update_ne _ _ (by decide)]
    rfl
  have hn : (afterPart t).nodes n = node n := by
    rw [afterPart, Net.setRebalancing, Net.update_self, Net.setTopology,
      Net.update_ne _ _ (by decide), Net.setRebalancing, Net.update_self]
    rfl
  refine ⟨afterPart t, hfail, by rw [hb]; exact howners, fun w₂ hok => ?_⟩
  have hadm : Admitted ((afterPart t).reachable.nodes n) a := by
    rw [Net.reachable_nodes, hn]
    exact admitted
  -- a success would need the promoted node's digest at `b`
  have hconv := (converge_ok hadm hok).1
  have hrecv := hconv.receivers b (by
    rw [Net.reachable_nodes, hn]
    exact receivers ▸ by decide)
  have hfence := hrecv.2.2.2.fence
  rw [Net.reachable_nodes, hn, hb] at hfence
  rcases hfence with hnil | hsame
  · obtain ⟨rest, hrest⟩ := ownershipText_cons owners
    rw [clusterOwnershipDigest, show (node n).topology.owners = owners from rfl, id, hrest,
      hexText_append] at hnil
    exact absurd (append_eq_nil_iff.1 hnil).1 (by decide)
  · exact digest_ne t howners hsame

end Cluster
end SnugKV
