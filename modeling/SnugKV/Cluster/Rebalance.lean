import SnugKV.Cluster.Control
import SnugKV.Cluster.Routing

/-!
# Rebalancing — moving one slot, and resuming a move that stopped

`rebalanceMoveOneSlot` marks the slot as importing at the target and as migrating at the owner,
moves the keys in batches and then tells every known node the new owner, the source last. When
any step fails the slot stays marked, and `resumeRebalanceSlot` takes the move up again.

* `executeMigrate` — one batch of keys;
* `drain`          — batch after batch until the slot is empty at the source; it runs on fuel,
  because the loop of the source has no bound of its own;
* `Resumable`      — the states from which resuming ends with every node naming the target.
-/

namespace SnugKV
namespace Cluster

open Lib List SlotTable Node Net

variable {V P : Type}

/-! ## One batch of keys -/

/-- What `DUMP` and `RESTORE` make of values and payloads. -/
structure Transfer (V P : Type) where
  /-- `dumpKey`: fails for types without a dump format, and may have no payload. -/
  dump : V → Option (Option P)
  /-- The number of records `Export` writes for the key. -/
  records : V → Nat
  /-- The restored value, if the target accepts the payload: whatever it holds, with no limit to
  its memory and no deadline on the key. -/
  load : P → Option V

namespace Node

def get (n : Node V) (k : Bytes) : Option V :=
  (n.store.find? fun kv => kv.1 == k).map Prod.snd

def put (n : Node V) (k : Bytes) (v : V) : Node V :=
  { n with store := (k, v) :: n.store.filter fun kv => kv.1 != k }

def delete (n : Node V) (k : Bytes) : Node V :=
  { n with store := n.store.filter fun kv => kv.1 != k }

/-- The keys of the slot in the order of `Keys("*")`. -/
def slotKeys (n : Node V) (slot : Slot) : List Bytes :=
  ((n.store.map Prod.fst).insertionSort (· ≤ ·)).filter fun k => clusterKeySlot k == slot

/-- `clusterLocalKeysInSlot` -/
def clusterLocalKeysInSlot (n : Node V) (slot : Slot) (limit : Nat) : List Bytes :=
  if !n.topology.enabled then []
  else if n.topology.owners slot ≠ n.topology.nodeAddr then []
  else (n.slotKeys slot).take limit

/-- `prepareMigrateItems`: absent keys, keys without payload and keys of several records are left
out. -/
def prepareMigrateItems (tr : Transfer V P) (n : Node V) :
    List Bytes → Except ControlError (List (Bytes × P))
  | [] => .ok []
  | k :: ks =>
    match n.get k with
    | none => prepareMigrateItems tr n ks
    | some v =>
      match tr.dump v with
      | none => .error .undumpable
      | some none => prepareMigrateItems tr n ks
      | some (some p) =>
        if tr.records v ≠ 1 then prepareMigrateItems tr n ks
        else (prepareMigrateItems tr n ks).map ((k, p) :: ·)

/-- `RESTORE` or `RESTORE-ASKING` at the target. -/
def restore (tr : Transfer V P) (asking replace : Bool) (k : Bytes) (p : P) (n : Node V) :
    Option (Node V) :=
  let admitted :=
    if asking then n.topology.enabled && n.topology.importing (clusterKeySlot k) != []
    else (enforceClusterRouting n.topology none (fun k => (n.get k).isSome) false [k]).isOk
  if !admitted then none
  else if !replace && (n.get k).isSome then none
  else (tr.load p).map (n.put k)

end Node

/-- The answers of a batch. `cut` is set once an answer is lost: from then on the source reads
nothing and deletes nothing, while the target may go on. `err` is the first refusal. -/
def readAnswers (tr : Transfer V P) (source target : Addr) (asking : Bytes → Bool)
    (replace : Bool) : List (Bytes × P) → Bool → Option ControlError →
      Net V → Except ControlError Unit × Net V
  | [], cut, err, w =>
    (if cut then .error (err.getD .noAnswer)
      else match err with
        | some e => .error e
        | none => .ok (), w)
  | (k, p) :: rest, cut, err, w =>
    match w.nextFate with
    | (.lost, w) => (.error (err.getD .noAnswer), w)
    | (fate, w) =>
      let cut := cut || fate == .unanswered
      match (w.nodes target).restore tr (asking k) replace k p with
      | none =>
        readAnswers tr source target asking replace rest cut
          (if cut then err else err.or (some .targetRefused)) w
      | some n =>
        let w := w.update target fun _ => n
        readAnswers tr source target asking replace rest cut err
          (if cut then w else w.update source (Node.delete · k))

/-- `executeMigrateWithTransport` with `KEYS`; `+NOKEY` counts as success. -/
def executeMigrate (tr : Transfer V P) (source target : Addr) (host port : Bytes)
    (replace : Bool) (keys : List Bytes) : Action (Net V) ControlError Unit := fun w =>
  let n := w.nodes source
  match n.prepareMigrateItems tr keys with
  | .error e => (.error e, w)
  | .ok [] => (.ok (), w)
  | .ok items =>
    if !validPort port then (.error .noAnswer, w)
    else
      match w.nextFate with
      | (.lost, w) => (.error .noAnswer, w)
      | (_, w) =>
        readAnswers tr source target
          (fun k => n.topology.enabled &&
            n.topology.migrating (clusterKeySlot k) == joinHostPort host port)
          replace items false none w

/-! ## Moving and resuming -/

/-- Repeats a batch whose connection broke. -/
def retrying (m : Action (Net V) ControlError Unit) : Nat → Action (Net V) ControlError Unit
  | 0 => m
  | tries + 1 => fun w =>
    match m w with
    | (.error .noAnswer, w') => retrying m tries w'
    | r => r

/-- The loop over the batches of 64 keys; `none` while it still runs. -/
def drain (tr : Transfer V P) (source target : Addr) (host port : Bytes) (slot : Slot)
    (replace : Bool) (tries : Nat) : Nat → Net V → Option (Except ControlError Unit × Net V)
  | 0, _ => none
  | fuel + 1, w =>
    let keys := (w.nodes source).clusterLocalKeysInSlot slot 64
    if keys = [] then some (.ok (), w)
    else
      match retrying (executeMigrate tr source target host port replace keys) tries w with
      | (.error e, w') => some (.error e, w')
      | (.ok (), w') => drain tr source target host port slot replace tries fuel w'

section

variable (sha1 : Bytes → Bytes)

def announced (state : Topology) : List Addr :=
  (clusterKnownNodesFromState state).filter fun a => a ≠ state.nodeAddr

def finalizeRebalanceSlotOwners (source : Addr) (state : Topology) (slot : Slot)
    (target : Addr) : Action (Net V) ControlError Unit := do
  let r := Request.setSlot slot (.node (clusterNodeID sha1 target))
  sendAll sha1 r (announced state)
  runLocal source fun saved n => n.handle sha1 saved r

def resumeRebalanceSlot (tr : Transfer V P) (source : Addr) (slot : Slot) (fuel : Nat)
    (w : Net V) : Option (Except ControlError Unit × Net V) :=
  let state := (w.nodes source).topology
  let target := state.migrating slot
  if state.owners slot ≠ state.nodeAddr then some (.error .notSlotOwner, w)
  else if target = [] then some (.error .notMigrating, w)
  else
    match splitHostPort target with
    | none => some (.error .undialable, w)
    | some (host, port) =>
      match sendClusterControlCommand sha1 target
          (.setSlot slot (.importing (clusterNodeID sha1 state.nodeAddr))) w with
      | (.error e, w) => some (.error e, w)
      | (.ok (), w) =>
        match drain tr source target host port slot true 2 fuel w with
        | none => none
        | some (.error e, w) => some (.error e, w)
        | some (.ok (), w) => some (finalizeRebalanceSlotOwners sha1 source state slot target w)

/-- A move of `slot` to `target`; the marks stay when a batch or the announcement fails. -/
def rebalanceMoveOneSlot (tr : Transfer V P) (source target : Addr) (slot : Slot) (fuel : Nat)
    (w : Net V) : Option (Except ControlError Unit × Net V) :=
  let state := (w.nodes source).topology
  let stable := Request.setSlot slot .stable
  match sendClusterControlCommand sha1 target
      (.setSlot slot (.importing (clusterNodeID sha1 state.nodeAddr))) w with
  | (.error e, w) => some (.error e, w)
  | (.ok (), w) =>
    match runLocal source (fun saved n => n.handle sha1 saved
        (.setSlot slot (.migrating (clusterNodeID sha1 target)))) w with
    | (.error e, w) => some (.error e, (sendClusterControlCommand sha1 target stable w).2)
    | (.ok (), w) =>
      match splitHostPort target with
      | none =>
        let w := (runLocal source (fun saved n => n.handle sha1 saved stable) w).2
        some (.error .undialable, (sendClusterControlCommand sha1 target stable w).2)
      | some (host, port) =>
        match drain tr source target host port slot false 0 fuel w with
        | none => none
        | some (.error e, w) => some (.error e, w)
        | some (.ok (), w) =>
          some (finalizeRebalanceSlotOwners sha1 source state slot target w)

end

/-! ## The two `SETSLOT` commands of a move -/

section

variable {sha1 : Bytes → Bytes} {slot : Slot} {n : Node V} {t : Topology} {id : Bytes}

theorem clusterNodeAddressByID_some {a : Addr} (h : clusterNodeAddressByID sha1 t id = some a) :
    a ≠ [] ∧ (a ∈ clusterKnownNodesFromState t ∨ a = t.nodeAddr) := by
  unfold clusterNodeAddressByID at h
  split at h
  · rename_i b hb
    cases h
    have hmem := mem_of_find?_eq_some hb
    refine ⟨?_, .inl hmem⟩
    simp only [clusterKnownNodesFromState] at hmem
    split at hmem
    · exact (mem_sortedClusterKnownNodes.1 hmem).2
    · exact (mem_sortedClusterKnownNodes.1 hmem).2
  · split at h
    · rename_i hself
      cases h
      exact ⟨hself.1, .inr rfl⟩
    · cases h

theorem clusterNodeAddressByID_congr {t u : Topology} (hknown : t.knownNodes = u.knownNodes)
    (howners : t.owners = u.owners) (haddr : t.nodeAddr = u.nodeAddr) :
    clusterNodeAddressByID sha1 t id = clusterNodeAddressByID sha1 u id := by
  unfold clusterNodeAddressByID clusterKnownNodesFromState
  rw [hknown, howners, haddr]

/-- The tables with which a node accepts `target` as the new owner. -/
structure TakesSlot (sha1 : Bytes → Bytes) (slot : Slot) (target : Addr) (n : Node V) : Prop where
  enabled : n.topology.enabled = true
  knows : clusterNodeAddressByID sha1 n.topology (clusterNodeID sha1 target) = some target
  free : ¬ (n.topology.owners slot = n.topology.nodeAddr ∧ target ≠ n.topology.nodeAddr ∧
    n.hasKeys slot = true)

def Settled (slot : Slot) (target : Addr) (n : Node V) : Prop :=
  n.topology.owners slot = target ∧ n.topology.migrating slot = [] ∧
    n.topology.importing slot = []

theorem handle_node_ok {saved : Bool}
    (h : n.handle sha1 saved (.setSlot slot (.node id)) = .ok t) : ∃ owner,
      n.topology.enabled = true ∧ clusterNodeAddressByID sha1 n.topology id = some owner ∧
      ¬ (n.topology.owners slot = n.topology.nodeAddr ∧ owner ≠ n.topology.nodeAddr ∧
        n.hasKeys slot = true) ∧
      Settled slot owner { n with topology := t } ∧ t.nodeAddr = n.topology.nodeAddr := by
  simp only [handle, executeClusterSetSlot] at h
  split at h
  · cases h
  rename_i henabled
  split at h
  · cases h
  rename_i owner howner
  split at h
  · cases h
  rename_i hfree
  obtain ⟨e, rfl⟩ := mutateClusterTopology_ok h
  exact ⟨owner, by simpa using henabled, howner, hfree,
    ⟨put_same _ _ _, put_same _ _ _, put_same _ _ _⟩, rfl⟩

theorem TakesSlot.handle {target : Addr} (h : TakesSlot sha1 slot target n) :
    ∃ t, n.handle sha1 true (.setSlot slot (.node (clusterNodeID sha1 target))) = .ok t := by
  simp only [Node.handle, executeClusterSetSlot, h.enabled, Bool.not_true, Bool.false_eq_true,
    if_false, h.knows, if_neg h.free]
  obtain ⟨e, he⟩ := mutateClusterTopology_saved (fun u =>
    { u with
      owners := SlotTable.put u.owners slot target
      migrating := SlotTable.put u.migrating slot []
      importing := SlotTable.put u.importing slot [] }) n.topology
  exact ⟨_, he⟩

theorem TakesSlot.of_took {target : Addr} {n' : Node V}
    (h : n.Took sha1 (.setSlot slot (.node (clusterNodeID sha1 target))) n')
    (hset : Settled slot target n') : TakesSlot sha1 slot target n := by
  obtain ⟨saved, t, ht, rfl⟩ := h
  obtain ⟨owner, henabled, howner, hfree, hset', -⟩ := handle_node_ok ht
  obtain rfl : owner = target := hset'.1.symm.trans hset.1
  exact ⟨henabled, howner, hfree⟩

theorem Settled.of_took {target : Addr} {n' : Node V} (htakes : TakesSlot sha1 slot target n)
    (h : n.Took sha1 (.setSlot slot (.node (clusterNodeID sha1 target))) n') :
    Settled slot target n' := by
  obtain ⟨saved, t, ht, rfl⟩ := h
  obtain ⟨owner, -, howner, -, hset, -⟩ := handle_node_ok ht
  rw [htakes.knows] at howner
  cases howner
  exact hset

theorem handle_migrating_of {target : Addr} (henabled : n.topology.enabled = true)
    (howner : n.topology.owners slot = n.topology.nodeAddr)
    (hknows : clusterNodeAddressByID sha1 n.topology (clusterNodeID sha1 target) = some target) :
    ∃ e, n.handle sha1 true (.setSlot slot (.migrating (clusterNodeID sha1 target))) =
      .ok { n.topology with
        migrating := put n.topology.migrating slot target
        importing := put n.topology.importing slot []
        epoch := e } := by
  obtain ⟨e, he⟩ := mutateClusterTopology_saved (fun u =>
    { u with
      migrating := put u.migrating slot target
      importing := put u.importing slot [] }) n.topology
  refine ⟨e, Eq.trans ?_ he⟩
  simp only [handle, executeClusterSetSlot, henabled, Bool.not_true, Bool.false_eq_true,
    if_false, hknows, if_neg (not_not.2 howner)]

/-- A node that takes the slot in: it knows the source and does not own the slot. -/
structure TakesImport (sha1 : Bytes → Bytes) (slot : Slot) (source : Addr) (t : Topology) :
    Prop where
  enabled : t.enabled = true
  knows : ∃ a, clusterNodeAddressByID sha1 t (clusterNodeID sha1 source) = some a
  foreign : t.owners slot ≠ t.nodeAddr

/-- The tables after `SETSLOT IMPORTING`. -/
def Imported (slot : Slot) (t u : Topology) : Prop :=
  ∃ a e, a ≠ [] ∧ u = { t with
    migrating := SlotTable.put t.migrating slot []
    importing := SlotTable.put t.importing slot a
    epoch := e }

theorem handle_importing_ok {saved : Bool} {source : Addr}
    (h : n.handle sha1 saved (.setSlot slot (.importing (clusterNodeID sha1 source))) = .ok t) :
    TakesImport sha1 slot source n.topology ∧ Imported slot n.topology t := by
  simp only [handle, executeClusterSetSlot] at h
  split at h
  · cases h
  rename_i henabled
  split at h
  · cases h
  rename_i a ha
  split at h
  · cases h
  rename_i hforeign
  obtain ⟨e, rfl⟩ := mutateClusterTopology_ok h
  exact ⟨⟨by simpa using henabled, ⟨a, ha⟩, hforeign⟩, a, e, (clusterNodeAddressByID_some ha).1,
    rfl⟩

theorem TakesImport.handle {source : Addr} (h : TakesImport sha1 slot source n.topology) :
    ∃ t, n.handle sha1 true (.setSlot slot (.importing (clusterNodeID sha1 source))) = .ok t := by
  obtain ⟨a, ha⟩ := h.knows
  simp only [Node.handle, executeClusterSetSlot, h.enabled, Bool.not_true, Bool.false_eq_true,
    if_false, ha, if_neg h.foreign]
  obtain ⟨e, he⟩ := mutateClusterTopology_saved (fun u =>
    { u with
      migrating := SlotTable.put u.migrating slot []
      importing := SlotTable.put u.importing slot a }) n.topology
  exact ⟨_, he⟩

end

/-! ## One batch without faults -/

/-- A value that can be moved: it has a payload in one record, and the payload can be restored. -/
def Transfer.Movable (tr : Transfer V P) (v : V) : Prop :=
  ∃ p, tr.dump v = some (some p) ∧ tr.records v = 1 ∧ (tr.load p).isSome = true

def Transfer.accepts (tr : Transfer V P) (asking : Bytes → Bool) (it : Bytes × P) : Bool :=
  asking it.1 && (tr.load it.2).isSome

/-- The node takes the slot in. -/
structure Node.Importing (n : Node V) (slot : Slot) : Prop where
  enabled : n.topology.enabled = true
  importing : n.topology.importing slot ≠ []
  foreign : n.topology.owners slot ≠ n.topology.nodeAddr

/-- The keys `moved` left the source for the target, and nothing else changed. -/
structure MovedKeys (source target : Addr) (w w' : Net V) (moved : List Bytes) : Prop where
  fates : w'.fates = w.fates
  others : ∀ a, a ≠ source → a ≠ target → w'.nodes a = w.nodes a
  tables : (w'.nodes target).topology = (w.nodes target).topology
  source : w'.nodes source = { w.nodes source with
    store := (w.nodes source).store.filter fun kv => kv.1 ∉ moved }

section

variable {tr : Transfer V P} {source target : Addr} {slot : Slot} {n : Node V} {w w' : Net V}

theorem mem_slotKeys {k : Bytes} :
    k ∈ n.slotKeys slot ↔ (∃ v, (k, v) ∈ n.store) ∧ clusterKeySlot k = slot := by
  simp [slotKeys]

theorem restore_importing (h : n.Importing slot) {k : Bytes} (hk : clusterKeySlot k = slot)
    (asking : Bool) (p : P) :
    n.restore tr asking true k p = if asking then (tr.load p).map (n.put k) else none := by
  cases asking with
  | true => simp [restore, h.enabled, hk, h.importing]
  | false =>
    -- a plain `RESTORE` is routed away: the node does not own the slot
    have hroute : (enforceClusterRouting n.topology none (fun k => (n.get k).isSome) false
        [k]).isOk = false := by
      simp only [enforceClusterRouting, h.enabled, hk, if_neg h.foreign]
      by_cases hnone : n.topology.owners slot = []
      · simp [hnone, Except.isOk, Except.toBool]
      · simp [hnone, Except.isOk, Except.toBool]
    simp [restore, hroute]

theorem MovedKeys.refl (w : Net V) : MovedKeys source target w w [] :=
  ⟨rfl, fun _ _ _ => rfl, rfl, by simp⟩

theorem MovedKeys.trans {w₁ w₂ : Net V} {m₁ m₂ : List Bytes}
    (h₁ : MovedKeys source target w w₁ m₁) (h₂ : MovedKeys source target w₁ w₂ m₂) :
    MovedKeys source target w w₂ (m₁ ++ m₂) := by
  refine ⟨h₂.fates.trans h₁.fates, fun a ha hb => (h₂.others a ha hb).trans (h₁.others a ha hb),
    h₂.tables.trans h₁.tables, ?_⟩
  rw [h₂.source, h₁.source]
  simp only [filter_filter]
  congr 1
  simp [Bool.and_comm]

theorem MovedKeys.importing {moved : List Bytes} (h : MovedKeys source target w w' moved)
    (hi : (w.nodes target).Importing slot) : (w'.nodes target).Importing slot := by
  refine ⟨?_, ?_, ?_⟩ <;> rw [h.tables]
  · exact hi.enabled
  · exact hi.importing
  · exact hi.foreign

theorem MovedKeys.single (hne : source ≠ target) (w : Net V) (k : Bytes) (v : V) :
    MovedKeys source target w
      ((w.update target fun _ => (w.nodes target).put k v).update source (delete · k))
      [k] := by
  refine ⟨rfl, fun a ha hb => ?_, ?_, ?_⟩
  · rw [update_ne _ _ ha, update_ne _ _ hb]
  · rw [update_ne _ _ hne.symm, update_self]
    rfl
  · rw [update_self, update_ne _ _ hne]
    simp only [delete, mem_singleton]
    congr 1
    refine filter_congr fun kv _ => ?_
    by_cases hk : kv.1 = k <;> simp [hk]

theorem readAnswers_reachable (hne : source ≠ target) {asking : Bytes → Bool} :
    ∀ {items : List (Bytes × P)} {err : Option ControlError} {w : Net V}, w.fates = [] →
      (w.nodes target).Importing slot → (∀ it ∈ items, clusterKeySlot it.1 = slot) →
      ∃ out w', readAnswers tr source target asking true items false err w = (out, w') ∧
        MovedKeys source target w w' ((items.filter (tr.accepts asking)).map Prod.fst) ∧
        (out = .ok () ↔ err = none ∧ ∀ it ∈ items, tr.accepts asking it = true) ∧
        (out = .error .noAnswer → err = some .noAnswer) := by
  intro items
  induction items with
  | nil =>
    intro err w hw hi hslot
    refine ⟨_, w, rfl, MovedKeys.refl w, ?_, ?_⟩
    · cases err <;> simp
    · cases err with
      | none => simp
      | some e => simp
  | cons it rest ih =>
    obtain ⟨k, p⟩ := it
    intro err w hw hi hslot
    have hk : clusterKeySlot k = slot := hslot (k, p) mem_cons_self
    have hrest : ∀ it ∈ rest, clusterKeySlot it.1 = slot :=
      fun it hit => hslot it (mem_cons_of_mem _ hit)
    have hres := @restore_importing V P tr slot (w.nodes target) hi k hk (asking k) p
    by_cases hacc : tr.accepts asking (k, p) = true
    · -- accepted: the key is at the target and leaves the source
      obtain ⟨hask, hload⟩ := Bool.and_eq_true_iff.1 hacc
      obtain ⟨v, hv⟩ := Option.isSome_iff_exists.1 hload
      rw [hask, if_pos rfl, hv] at hres
      have hmove := MovedKeys.single hne w k v
      obtain ⟨out, w', hrun, hmoved, hok, herr⟩ := @ih err _ (hmove.fates.trans hw)
        (hmove.importing hi) hrest
      refine ⟨out, w', ?_, ?_, ?_, herr⟩
      · rw [readAnswers, nextFate_of_nil hw]
        simp only [hask, hres, Option.map_some]
        exact hrun
      · rw [filter_cons, if_pos hacc]
        exact hmove.trans hmoved
      · rw [hok, forall_mem_cons]
        simp [hacc]
    · have hnone : (w.nodes target).restore tr (asking k) true k p = none := by
        rw [hres]
        cases hask : asking k with
        | false => simp
        | true =>
          rw [Transfer.accepts, hask, Bool.true_and, Bool.not_eq_true,
            Option.isSome_eq_false_iff, Option.isNone_iff_eq_none] at hacc
          simp [hacc]
      obtain ⟨out, w', hrun, hmoved, hok, herr⟩ := @ih (err.or (some .targetRefused)) w hw hi hrest
      refine ⟨out, w', ?_, ?_, ?_, fun hout => ?_⟩
      · rw [readAnswers, nextFate_of_nil hw]
        simp only [hnone]
        exact hrun
      · rw [filter_cons, if_neg hacc]
        exact hmoved
      · rw [hok, forall_mem_cons]
        cases err <;> simp [hacc]
      · have hor := herr hout
        cases err with
        | none => cases hor
        | some e => exact hor

end

section

variable {tr : Transfer V P} {source target : Addr} {host port : Bytes} {slot : Slot}
  {n : Node V} {w w' : Net V} {keys : List Bytes}

theorem prepareMigrateItems_ok : ∀ {keys : List Bytes} {items : List (Bytes × P)},
    n.prepareMigrateItems tr keys = .ok items → (items.map Prod.fst).Sublist keys ∧
      ∀ it ∈ items, ∃ v, n.get it.1 = some v ∧ tr.dump v = some (some it.2) ∧ tr.records v = 1 := by
  intro keys
  induction keys with
  | nil =>
    intro items h
    cases h
    exact ⟨.slnil, nofun⟩
  | cons k ks ih =>
    intro items h
    have hskip := fun h => (@ih items h).imp_left (Sublist.cons k)
    rw [prepareMigrateItems] at h
    split at h
    · exact hskip h
    rename_i v hv
    split at h
    · cases h
    · exact hskip h
    rename_i p hp
    split at h
    · exact hskip h
    rename_i hone
    rcases htail : n.prepareMigrateItems tr ks with e | tail
    · rw [htail] at h
      cases h
    · rw [htail] at h
      cases h
      obtain ⟨hsub, htail⟩ := ih htail
      exact ⟨hsub.cons_cons k, forall_mem_cons.2 ⟨⟨v, hv, hp, by simpa using hone⟩, htail⟩⟩

theorem prepareMigrateItems_of_movable : ∀ {keys : List Bytes},
    (∀ k ∈ keys, ∃ v, n.get k = some v ∧ tr.Movable v) →
      ∃ items, n.prepareMigrateItems tr keys = .ok items ∧ items.map Prod.fst = keys ∧
        ∀ it ∈ items, (tr.load it.2).isSome = true := by
  intro keys
  induction keys with
  | nil => exact fun _ => ⟨[], rfl, rfl, fun it hit => absurd hit not_mem_nil⟩
  | cons k ks ih =>
    intro h
    obtain ⟨v, hv, p, hp, hone, hload⟩ := h k mem_cons_self
    obtain ⟨items, hitems, hkeys, hloads⟩ := ih fun k' hk' => h k' (mem_cons_of_mem _ hk')
    refine ⟨(k, p) :: items, ?_, by simp [hkeys], forall_mem_cons.2 ⟨hload, hloads⟩⟩
    rw [prepareMigrateItems]
    simp [hv, hp, hone, hitems, Except.map]

theorem prepareMigrateItems_error : ∀ {keys : List Bytes} {e : ControlError},
    n.prepareMigrateItems tr keys = .error e → e = .undumpable := by
  intro keys
  induction keys with
  | nil => exact fun h => by cases h
  | cons k ks ih =>
    intro e h
    rw [prepareMigrateItems] at h
    split at h
    · exact ih h
    split at h
    · cases h
      rfl
    · exact ih h
    split at h
    · exact ih h
    rcases htail : n.prepareMigrateItems tr ks with e' | tail
    · rw [htail] at h
      cases h
      exact ih htail
    · rw [htail] at h
      cases h

/-- The source announces the keys of the slot to the target with `RESTORE-ASKING`. -/
def Node.announces (n : Node V) (host port : Bytes) (k : Bytes) : Bool :=
  n.topology.enabled && n.topology.migrating (clusterKeySlot k) == joinHostPort host port

theorem executeMigrate_eq {items : List (Bytes × P)} (hw : w.fates = [])
    (hport : validPort port = true)
    (hprep : (w.nodes source).prepareMigrateItems tr keys = .ok items) :
    executeMigrate tr source target host port true keys w =
      readAnswers tr source target ((w.nodes source).announces host port) true items false none
        w := by
  cases items with
  | nil => simp only [executeMigrate, hprep, readAnswers, Bool.false_eq_true, if_false]
  | cons it rest =>
    simp only [executeMigrate, hprep, hport, Bool.not_true, Bool.false_eq_true, if_false,
      nextFate_of_nil hw]
    rfl

theorem executeMigrate_reachable (hne : source ≠ target) (hw : w.fates = [])
    (hi : (w.nodes target).Importing slot) (hport : validPort port = true)
    (hkeys : ∀ k ∈ keys, clusterKeySlot k = slot) :
    ∃ out w', executeMigrate tr source target host port true keys w = (out, w') ∧
      out ≠ .error .noAnswer ∧
      (out = .ok () → ∃ moved, MovedKeys source target w w' moved ∧ ∀ k ∈ moved,
        (w.nodes source).announces host port k = true ∧
          ∃ v, (w.nodes source).get k = some v ∧ tr.Movable v) ∧
      ((∀ k ∈ keys, (w.nodes source).announces host port k = true ∧
          ∃ v, (w.nodes source).get k = some v ∧ tr.Movable v) →
        out = .ok () ∧ MovedKeys source target w w' keys) := by
  rcases hprep : (w.nodes source).prepareMigrateItems tr keys with e | items
  · refine ⟨.error e, w, by simp only [executeMigrate, hprep], ?_, nofun, fun h => ?_⟩
    · simp [prepareMigrateItems_error hprep]
    · obtain ⟨items, hitems, -⟩ := prepareMigrateItems_of_movable fun k hk => (h k hk).2
      rw [hprep] at hitems
      cases hitems
  · obtain ⟨hsub, hitems⟩ := prepareMigrateItems_ok hprep
    have hin : ∀ it ∈ items, it.1 ∈ keys := fun it hit => hsub.subset (mem_map_of_mem hit)
    obtain ⟨out, w', hrun, hmoved, hok, herr⟩ := @readAnswers_reachable V P tr source target
      slot hne ((w.nodes source).announces host port) items none w hw hi
      fun it hit => hkeys it.1 (hin it hit)
    refine ⟨out, w', (executeMigrate_eq hw hport hprep).trans hrun, (fun h => nomatch herr h),
      fun _ => ⟨_, hmoved, fun k hk => ?_⟩, fun h => ?_⟩
    · obtain ⟨it, hit, rfl⟩ := mem_map.1 hk
      obtain ⟨hmem, hacc⟩ := mem_filter.1 hit
      obtain ⟨hask, hload⟩ := Bool.and_eq_true_iff.1 hacc
      obtain ⟨v, hv, hp, hone⟩ := hitems it hmem
      exact ⟨hask, v, hv, it.2, hp, hone, hload⟩
    · obtain ⟨items', hitems', hnames, hloads⟩ :=
        prepareMigrateItems_of_movable fun k hk => (h k hk).2
      rw [hprep] at hitems'
      cases hitems'
      have hall : ∀ it ∈ items, tr.accepts ((w.nodes source).announces host port) it = true :=
        fun it hit => Bool.and_eq_true_iff.2 ⟨(h it.1 (hin it hit)).1, hloads it hit⟩
      refine ⟨hok.2 ⟨rfl, hall⟩, ?_⟩
      rw [filter_eq_self.2 hall, hnames] at hmoved
      exact hmoved

theorem retrying_eq {m : Action (Net V) ControlError Unit} {out : Except ControlError Unit}
    (h : m w = (out, w')) (hout : out ≠ .error .noAnswer) (tries : Nat) :
    retrying m tries w = (out, w') := by
  cases tries with
  | zero => exact h
  | succ tries =>
    simp only [retrying, h]
    split
    · rename_i heq
      exact absurd (Prod.mk.inj heq).1 hout
    · rfl

end

/-! ## Draining the slot -/

/-- The node owns the slot in its own tables. -/
structure Node.Serving (n : Node V) (slot : Slot) : Prop where
  enabled : n.topology.enabled = true
  owner : n.topology.owners slot = n.topology.nodeAddr

def Node.AllMovable (tr : Transfer V P) (host port : Bytes) (slot : Slot) (n : Node V) : Prop :=
  ∀ k ∈ n.slotKeys slot, n.announces host port k = true ∧ ∃ v, n.get k = some v ∧ tr.Movable v

section

variable {tr : Transfer V P} {source target : Addr} {host port : Bytes} {slot : Slot}
  {n : Node V} {w w' : Net V} {moved : List Bytes}

theorem Node.Serving.localKeys (h : n.Serving slot) (limit : Nat) :
    n.clusterLocalKeysInSlot slot limit = (n.slotKeys slot).take limit := by
  simp [clusterLocalKeysInSlot, h.enabled, h.owner]

section

variable (h : MovedKeys source target w w' moved)

include h

theorem MovedKeys.serving
    (hs : (w.nodes source).Serving slot) : (w'.nodes source).Serving slot := by
  rw [h.source]
  exact ⟨hs.enabled, hs.owner⟩

theorem MovedKeys.mem_slotKeys {k : Bytes} :
    k ∈ (w'.nodes source).slotKeys slot ↔ k ∈ (w.nodes source).slotKeys slot ∧ k ∉ moved := by
  rw [h.source, Cluster.mem_slotKeys, Cluster.mem_slotKeys]
  simp only [mem_filter, decide_eq_true_eq]
  constructor
  · rintro ⟨⟨v, hv, hk⟩, hslot⟩
    exact ⟨⟨⟨v, hv⟩, hslot⟩, hk⟩
  · rintro ⟨⟨⟨v, hv⟩, hslot⟩, hk⟩
    exact ⟨⟨v, hv, hk⟩, hslot⟩

theorem MovedKeys.get {k : Bytes} (hk : k ∉ moved) :
    (w'.nodes source).get k = (w.nodes source).get k := by
  rw [h.source, Node.get, Node.get, find?_filter]
  congr 1
  refine find?_congr fun kv _ => ?_
  by_cases hkv : kv.1 = k
  · simp [hkv, hk]
  · simp [hkv]

theorem MovedKeys.announces (k : Bytes) :
    (w'.nodes source).announces host port k = (w.nodes source).announces host port k := by
  rw [h.source]
  rfl

theorem MovedKeys.shrinks {k : Bytes} (hk : k ∈ moved) (hin : k ∈ (w.nodes source).slotKeys slot) :
    (w'.nodes source).store.length < (w.nodes source).store.length := by
  obtain ⟨v, hv⟩ := (Cluster.mem_slotKeys.1 hin).1
  rw [h.source, length_filter_lt_length_iff_exists]
  exact ⟨(k, v), hv, by simpa using hk⟩

end

theorem drain_ok (hne : source ≠ target) (hport : validPort port = true) :
    ∀ {fuel : Nat} {w w' : Net V}, w.fates = [] → (w.nodes target).Importing slot →
      (w.nodes source).Serving slot →
      drain tr source target host port slot true 2 fuel w = some (.ok (), w') →
        (∃ moved, MovedKeys source target w w' moved) ∧
          (w.nodes source).AllMovable tr host port slot ∧ (w'.nodes source).slotKeys slot = [] := by
  intro fuel
  induction fuel with
  | zero =>
    intro w w' _ _ _ h
    cases h
  | succ fuel ih =>
    intro w w' hw hi hs h
    rw [drain, hs.localKeys] at h
    by_cases hempty : (w.nodes source).slotKeys slot = []
    · rw [hempty, take_nil, if_pos rfl] at h
      cases h
      refine ⟨⟨[], MovedKeys.refl w⟩, fun k hk => ?_, hempty⟩
      rw [hempty] at hk
      cases hk
    · have hbatch : ((w.nodes source).slotKeys slot).take 64 ≠ [] := by
        simpa [take_eq_nil_iff] using hempty
      rw [if_neg hbatch] at h
      have hslots : ∀ k ∈ ((w.nodes source).slotKeys slot).take 64, clusterKeySlot k = slot :=
        fun k hk => (Cluster.mem_slotKeys.1 (mem_of_mem_take hk)).2
      obtain ⟨out, w₁, hrun, hout, hmoved, -⟩ :=
        @executeMigrate_reachable V P tr source target host port slot w _ hne hw hi hport hslots
      rw [retrying_eq hrun hout] at h
      rcases out with e | ⟨⟩
      · cases h
      · obtain ⟨moved, hmove, hkeys⟩ := hmoved rfl
        obtain ⟨⟨later, hlater⟩, hall, hnone⟩ := ih (hmove.fates.trans hw)
          (hmove.importing hi) (hmove.serving hs) h
        refine ⟨⟨moved ++ later, hmove.trans hlater⟩, fun k hk => ?_, hnone⟩
        -- a key went with this batch, or it is still there for the next ones
        by_cases hin : k ∈ moved
        · exact hkeys k hin
        · have hrest := hall k (hmove.mem_slotKeys.2 ⟨hk, hin⟩)
          rw [hmove.announces, hmove.get hin] at hrest
          exact hrest

/-- The number of keys at the source bounds the number of batches. -/
theorem drain_of_movable (hne : source ≠ target) (hport : validPort port = true) :
    ∀ {size : Nat} {w : Net V}, (w.nodes source).store.length ≤ size → w.fates = [] →
      (w.nodes target).Importing slot → (w.nodes source).Serving slot →
      (w.nodes source).AllMovable tr host port slot →
        ∃ w', drain tr source target host port slot true 2 (size + 1) w = some (.ok (), w') := by
  intro size
  induction size with
  | zero =>
    intro w hsize _ _ hs _
    have hstore : (w.nodes source).store = [] := length_eq_zero_iff.1 (Nat.le_zero.1 hsize)
    have hempty : (w.nodes source).slotKeys slot = [] := by simp [slotKeys, hstore]
    refine ⟨w, ?_⟩
    rw [drain, hs.localKeys, hempty, take_nil, if_pos rfl]
  | succ size ih =>
    intro w hsize hw hi hs hall
    rw [drain, hs.localKeys]
    by_cases hempty : (w.nodes source).slotKeys slot = []
    · exact ⟨w, by rw [hempty, take_nil, if_pos rfl]⟩
    · have hbatch : ((w.nodes source).slotKeys slot).take 64 ≠ [] := by
        simpa [take_eq_nil_iff] using hempty
      have hslots : ∀ k ∈ ((w.nodes source).slotKeys slot).take 64, clusterKeySlot k = slot :=
        fun k hk => (Cluster.mem_slotKeys.1 (mem_of_mem_take hk)).2
      obtain ⟨out, w₁, hrun, hout, -, hok⟩ :=
        @executeMigrate_reachable V P tr source target host port slot w _ hne hw hi hport hslots
      obtain ⟨rfl, hmove⟩ := hok fun k hk => hall k (mem_of_mem_take hk)
      -- the batch is not empty, so the store shrinks
      have hshrink : (w₁.nodes source).store.length ≤ size := by
        obtain ⟨k, hk⟩ := exists_mem_of_ne_nil _ hbatch
        have hlt := hmove.shrinks hk (mem_of_mem_take hk)
        exact Nat.le_of_lt_succ (lt_of_lt_of_le hlt hsize)
      have hrest : (w₁.nodes source).AllMovable tr host port slot := by
        intro k hk
        obtain ⟨hin, hout⟩ := hmove.mem_slotKeys.1 hk
        rw [hmove.announces, hmove.get hout]
        exact hall k hin
      obtain ⟨w', hw'⟩ := ih hshrink (hmove.fates.trans hw) (hmove.importing hi)
        (hmove.serving hs) hrest
      refine ⟨w', ?_⟩
      rw [if_neg hbatch, retrying_eq hrun hout]
      exact hw'

end

/-! ## Resuming -/

/-- The states from which resuming the slot ends well once every node answers. -/
structure Resumable (sha1 : Bytes → Bytes) (tr : Transfer V P) (w : Net V) (source : Addr)
    (slot : Slot) (target : Addr) (host port : Bytes) : Prop where
  serving : (w.nodes source).Serving slot
  migrating : (w.nodes source).topology.migrating slot = target
  marked : target ≠ []
  split : splitHostPort target = some (host, port)
  dialed : validPort port = true
  /-- The target knows the source and does not name itself as the owner yet. -/
  imports : TakesImport sha1 slot source (w.nodes target).topology
  keys : (w.nodes source).AllMovable tr host port slot
  others : ∀ a ∈ announced (w.nodes source).topology,
    dialable a = true ∧ TakesSlot sha1 slot target (w.nodes a)
  self : clusterNodeAddressByID sha1 (w.nodes source).topology (clusterNodeID sha1 target) =
    some target

variable {fuel : Nat}

section

variable {sha1 : Bytes → Bytes} {tr : Transfer V P} {source target : Addr} {host port : Bytes}
  {slot : Slot} {n n' : Node V} {w w' : Net V}

theorem dialable_iff {addr : Addr} (h : splitHostPort addr = some (host, port)) :
    dialable addr = validPort port := by
  simp [dialable, h]

theorem TakesSlot.of_foreign (h : TakesSlot sha1 slot target n)
    (henabled : n'.topology.enabled = n.topology.enabled)
    (hknown : n'.topology.knownNodes = n.topology.knownNodes)
    (howners : n'.topology.owners = n.topology.owners)
    (haddr : n'.topology.nodeAddr = n.topology.nodeAddr)
    (hforeign : n.topology.owners slot ≠ n.topology.nodeAddr) : TakesSlot sha1 slot target n' := by
  refine ⟨henabled.trans h.enabled, ?_, fun hown => ?_⟩
  · rw [clusterNodeAddressByID_congr hknown howners haddr]
    exact h.knows
  · rw [howners, haddr] at hown
    exact hforeign hown.1

theorem mem_announced {t : Topology} {a : Addr} (h : a ∈ announced t) : a ≠ t.nodeAddr := by
  simpa using (mem_filter.1 h).2

theorem nodup_announced (t : Topology) : (announced t).Nodup := by
  refine Nodup.filter _ ?_
  rw [clusterKnownNodesFromState]
  split <;> exact nodup_sortedClusterKnownNodes _

/-- The network once the target has the slot marked again and the keys have been moved. -/
structure Drained (slot : Slot) (source target : Addr) (w w₂ : Net V) : Prop where
  fates : w₂.fates = []
  others : ∀ a, a ≠ source → a ≠ target → w₂.nodes a = w.nodes a
  tables : Imported slot (w.nodes target).topology (w₂.nodes target).topology
  same : (w₂.nodes source).topology = (w.nodes source).topology
  empty : (w₂.nodes source).slotKeys slot = []

/-- Accepting the new owner is the same question before and after the keys moved. -/
theorem Drained.takesSlot {w₂ : Net V} (h : Drained slot source target w w₂)
    (himp : TakesImport sha1 slot source (w.nodes target).topology) {a : Addr} (ha : a ≠ source) :
    TakesSlot sha1 slot target (w₂.nodes a) ↔ TakesSlot sha1 slot target (w.nodes a) := by
  by_cases hat : a = target
  · subst hat
    obtain ⟨b, e, -, htab⟩ := h.tables
    constructor
    · intro htakes
      refine htakes.of_foreign ?_ ?_ ?_ ?_ ?_ <;> rw [htab]
      exact himp.foreign
    · intro htakes
      exact htakes.of_foreign (by rw [htab]) (by rw [htab]) (by rw [htab]) (by rw [htab])
        himp.foreign
  · rw [h.others a ha hat]

theorem Drained.takesSelf {w₂ : Net V} (h : Drained slot source target w w₂)
    (hs : (w.nodes source).topology.enabled = true)
    (hself : clusterNodeAddressByID sha1 (w.nodes source).topology (clusterNodeID sha1 target) =
      some target) : TakesSlot sha1 slot target (w₂.nodes source) := by
  refine ⟨by rw [h.same]; exact hs, by rw [h.same]; exact hself, fun hown => ?_⟩
  obtain ⟨kv, hkv, hslot⟩ := any_eq_true.1 hown.2.2
  have hmem := mem_slotKeys.2 ⟨⟨kv.2, hkv⟩, of_decide_eq_true hslot⟩
  rw [h.empty] at hmem
  cases hmem

/-- The announcement reaches every known node and settles the slot there, exactly when each of
them takes the target as the owner. -/
theorem finalize_iff {w₂ : Net V} (haddr : (w.nodes source).topology.nodeAddr = source)
    (hd : Drained slot source target w w₂) (hs : (w.nodes source).topology.enabled = true)
    (himp : TakesImport sha1 slot source (w.nodes target).topology) (hne : source ≠ target) :
    (∃ w', finalizeRebalanceSlotOwners sha1 source (w.nodes source).topology slot target w₂ =
        (.ok (), w') ∧
      ∀ a ∈ source :: target :: announced (w.nodes source).topology,
        Settled slot target (w'.nodes a)) ↔
      (∀ a ∈ announced (w.nodes source).topology,
        dialable a = true ∧ TakesSlot sha1 slot target (w.nodes a)) ∧
      clusterNodeAddressByID sha1 (w.nodes source).topology (clusterNodeID sha1 target) =
        some target := by
  have hsrc : ∀ a ∈ announced (w.nodes source).topology, a ≠ source :=
    fun a ha => haddr ▸ mem_announced ha
  have hout : source ∉ announced (w.nodes source).topology := fun hmem => hsrc source hmem rfl
  constructor
  · rintro ⟨w', hfin, hset⟩
    obtain ⟨⟨⟩, w₃, hsend, hlocal⟩ := Action.bind_eq_ok.1 hfin
    obtain ⟨htook, hsame⟩ := sendAll_ok (nodup_announced _) hsend
    obtain ⟨⟨saved, t, ht, hself⟩, hothers⟩ := runLocal_ok hlocal
    refine ⟨fun a ha => ?_, ?_⟩
    · obtain ⟨hdial, hta⟩ := htook a ha
      have hseta := hset a (mem_cons_of_mem _ (mem_cons_of_mem _ ha))
      rw [hothers a (hsrc a ha)] at hseta
      exact ⟨hdial, (hd.takesSlot himp (hsrc a ha)).1 (TakesSlot.of_took hta hseta)⟩
    · have hsets := hset source mem_cons_self
      rw [hsame source hout] at ht hself
      have htakes := TakesSlot.of_took ⟨saved, t, ht, hself⟩ hsets
      have hknows := htakes.knows
      rw [hd.same] at hknows
      exact hknows
  · rintro ⟨hothers, hself⟩
    obtain ⟨w₃, hsend, hfates⟩ := @sendAll_of_reachable V sha1
      (.setSlot slot (.node (clusterNodeID sha1 target))) _ w₂ (nodup_announced _) hd.fates
      fun a ha => ⟨(hothers a ha).1, ((hd.takesSlot himp (hsrc a ha)).2 (hothers a ha).2).handle⟩
    obtain ⟨htook, hsame⟩ := sendAll_ok (nodup_announced _) hsend
    have htakes := hd.takesSelf hs hself
    obtain ⟨t, ht⟩ := htakes.handle
    have hlocal := @runLocal_of_delivered V source w₃ (fun saved n => n.handle sha1 saved
      (.setSlot slot (.node (clusterNodeID sha1 target)))) w₃ t (nextFate_of_nil hfates) (by
        rw [hsame source hout]
        exact ht)
    refine ⟨w₃.setTopology source t, (Action.bind_ok hsend).trans hlocal, fun a ha => ?_⟩
    -- the target is among the nodes that are told: the source knows it
    have htarget : target ∈ announced (w.nodes source).topology := by
      have hknown := (clusterNodeAddressByID_some hself).2
      rw [haddr] at hknown
      refine mem_filter.2 ⟨hknown.resolve_right hne.symm, ?_⟩
      rw [haddr]
      simpa using hne.symm
    by_cases has : a = source
    · rw [has, setTopology_self, hsame source hout]
      exact Settled.of_took htakes ⟨true, t, ht, rfl⟩
    · have hmem : a ∈ announced (w.nodes source).topology := by
        rcases mem_cons.1 ha with h | h
        · exact absurd h has
        · rcases mem_cons.1 h with h | h
          · rw [h]
            exact htarget
          · exact h
      rw [setTopology_ne _ _ has]
      exact Settled.of_took ((hd.takesSlot himp has).2 (hothers a hmem).2) (htook a hmem).2

theorem Imported.importing {t : Topology} (h : Imported slot n.topology t)
    (himp : TakesImport sha1 slot source n.topology) :
    Importing { n with topology := t } slot := by
  obtain ⟨a, e, ha, rfl⟩ := h
  refine ⟨himp.enabled, ?_, himp.foreign⟩
  change put n.topology.importing slot a slot ≠ []
  rw [put_same]
  exact ha

theorem resume_eq_ok (h : resumeRebalanceSlot sha1 tr source slot fuel w = some (.ok (), w'))
    (htarget : (w.nodes source).topology.migrating slot = target) :
    (w.nodes source).topology.owners slot = (w.nodes source).topology.nodeAddr ∧ target ≠ [] ∧
      ∃ host port w₁ w₂, splitHostPort target = some (host, port) ∧
        sendClusterControlCommand sha1 target (.setSlot slot
          (.importing (clusterNodeID sha1 (w.nodes source).topology.nodeAddr))) w = (.ok (), w₁) ∧
        drain tr source target host port slot true 2 fuel w₁ = some (.ok (), w₂) ∧
        finalizeRebalanceSlotOwners sha1 source (w.nodes source).topology slot target w₂ =
          (.ok (), w') := by
  simp only [resumeRebalanceSlot, htarget] at h
  by_cases howner : (w.nodes source).topology.owners slot = (w.nodes source).topology.nodeAddr
  swap
  · rw [if_pos howner] at h
    cases h
  rw [if_neg (not_not.2 howner)] at h
  by_cases hmarked : target = []
  · rw [if_pos hmarked] at h
    cases h
  rw [if_neg hmarked] at h
  rcases hsplit : splitHostPort target with _ | ⟨host, port⟩
  · rw [hsplit] at h
    cases h
  rw [hsplit] at h
  rcases hsend : sendClusterControlCommand sha1 target (.setSlot slot
    (.importing (clusterNodeID sha1 (w.nodes source).topology.nodeAddr))) w with ⟨e | ⟨⟩, w₁⟩
  · rw [hsend] at h
    cases h
  rw [hsend] at h
  simp only at h
  rcases hdrain : drain tr source target host port slot true 2 fuel w₁ with _ | ⟨e | ⟨⟩, w₂⟩
  · rw [hdrain] at h
    cases h
  · rw [hdrain] at h
    cases h
  rw [hdrain] at h
  exact ⟨howner, hmarked, host, port, w₁, w₂, rfl, rfl, hdrain, Option.some.inj h⟩

/-- With every node answering, the re-marking and the batches succeed exactly when the target
takes the slot in and every key can be moved. -/
theorem drained_of_ok {t : Topology} (hw : w.fates = []) (hne : source ≠ target)
    (hport : validPort port = true) (hs : (w.nodes source).Serving slot)
    (himp : TakesImport sha1 slot source (w.nodes target).topology)
    (ht : Imported slot (w.nodes target).topology t)
    (h : drain tr source target host port slot true 2 fuel (w.setTopology target t) =
      some (.ok (), w')) :
    Drained slot source target w w' ∧ (w.nodes source).AllMovable tr host port slot := by
  have hsrc := w.setTopology_ne t hne
  have htgt := w.setTopology_self target t
  have hfates : (w.setTopology target t).fates = [] := hw
  obtain ⟨⟨moved, hmove⟩, hall, hempty⟩ := drain_ok hne hport hfates
    (htgt.symm ▸ ht.importing himp) (hsrc.symm ▸ hs) h
  rw [hsrc] at hall
  refine ⟨⟨hmove.fates.trans hw, fun a ha hb => ?_, ?_, ?_, hempty⟩, hall⟩
  · rw [hmove.others a ha hb, setTopology_ne _ _ hb]
  · rw [hmove.tables, htgt]
    exact ht
  · rw [hmove.source, hsrc]

/-- Once every node answers, resuming the slot ends, with every known node and the source naming
the target as the owner and the slot at rest, if and only if the state is `Resumable`: in
particular the target must not name itself as the owner yet. -/
theorem resume_completes_iff (sha1 : Bytes → Bytes) (tr : Transfer V P) (w : Net V)
    (source : Addr) (slot : Slot) (haddr : (w.nodes source).topology.nodeAddr = source) :
    (∃ fuel w', resumeRebalanceSlot sha1 tr source slot fuel w.reachable = some (.ok (), w') ∧
      ∀ a ∈ source :: (w.nodes source).topology.migrating slot ::
          announced (w.nodes source).topology,
        Settled slot ((w.nodes source).topology.migrating slot) (w'.nodes a)) ↔
      ∃ target host port, Resumable sha1 tr w source slot target host port := by
  constructor
  · rintro ⟨fuel, w', hres, hset⟩
    generalize htarget : (w.nodes source).topology.migrating slot = target at hset
    obtain ⟨howner, hmarked, host, port, w₁, w₂, hsplit, hsend, hdrain, hfin⟩ :=
      resume_eq_ok (w := w.reachable) hres htarget
    rw [Net.reachable_nodes] at howner hsend hfin
    obtain ⟨hdial, ⟨saved, t, ht, -⟩, -⟩ := sendClusterControlCommand_ok hsend
    rw [haddr] at ht hsend
    obtain ⟨himp, himported⟩ := handle_importing_ok ht
    have hne : source ≠ target := by
      rintro rfl
      exact himp.foreign howner
    -- without faults the target was left with the tables of an accepted command
    obtain ⟨t', ht'⟩ := TakesImport.handle (n := w.nodes target) himp
    have hsend' := sendClusterControlCommand_of_delivered (w := w.reachable)
      (Net.nextFate_of_nil rfl) hdial ht'
    obtain ⟨-, rfl⟩ := Prod.mk.inj (hsend.symm.trans hsend')
    have himported' := (handle_importing_ok ht').2
    have hport : validPort port = true := (dialable_iff hsplit).symm.trans hdial
    -- a disabled source finds no keys but cannot announce the new owner either
    have henabled : (w.nodes source).topology.enabled = true := by
      by_contra hoff
      have hnokeys : (w.nodes source).clusterLocalKeysInSlot slot 64 = [] := by
        simp [Node.clusterLocalKeysInSlot, hoff]
      have hsrc := w.reachable.setTopology_ne t' hne
      rw [Net.reachable_nodes] at hsrc
      obtain ⟨⟨⟩, w₃, hs, hlocal⟩ := Action.bind_eq_ok.1 hfin
      obtain ⟨⟨saved, u, hu, -⟩, -⟩ := runLocal_ok hlocal
      have hout : source ∉ announced (w.nodes source).topology :=
        fun hmem => mem_announced hmem haddr.symm
      have hw₂ : w₂ = w.reachable.setTopology target t' := by
        cases fuel with
        | zero => cases hdrain
        | succ fuel =>
          rw [drain, hsrc, hnokeys, if_pos rfl] at hdrain
          cases hdrain
          rfl
      rw [(sendAll_ok (nodup_announced _) hs).2 source hout, hw₂, hsrc] at hu
      obtain ⟨-, hon, -⟩ := handle_node_ok hu
      exact hoff hon
    have hserve : (w.nodes source).Serving slot := ⟨henabled, howner⟩
    obtain ⟨hd, hall⟩ := drained_of_ok (w := w.reachable) rfl hne hport hserve himp himported'
      hdrain
    obtain ⟨hothers, hself⟩ := (finalize_iff (w := w.reachable) haddr hd henabled himp hne).1
      ⟨w', hfin, hset⟩
    exact ⟨target, host, port, hserve, htarget, hmarked, hsplit, hport, himp, hall, hothers, hself⟩
  · rintro ⟨target, host, port, h⟩
    have hne : source ≠ target := by
      rintro rfl
      exact h.imports.foreign h.serving.owner
    obtain ⟨t, ht⟩ := TakesImport.handle (n := w.nodes target) h.imports
    have hsend := sendClusterControlCommand_of_delivered (w := w.reachable)
      (Net.nextFate_of_nil rfl) ((dialable_iff h.split).trans h.dialed) ht
    have himported := (handle_importing_ok ht).2
    have hsrc := w.reachable.setTopology_ne t hne
    have htgt := w.reachable.setTopology_self target t
    obtain ⟨w₂, hdrain⟩ := @drain_of_movable V P tr source target host port slot hne h.dialed
      _ (w.reachable.setTopology target t) (Nat.le_refl _) rfl
      (htgt.symm ▸ himported.importing h.imports) (hsrc.symm ▸ h.serving) (hsrc.symm ▸ h.keys)
    have hd := (drained_of_ok (w := w.reachable) rfl hne h.dialed h.serving h.imports himported
      hdrain).1
    obtain ⟨w', hfin, hset⟩ := (finalize_iff (w := w.reachable) haddr hd h.serving.enabled
      h.imports hne).2 ⟨h.others, h.self⟩
    refine ⟨((w.reachable.setTopology target t).nodes source).store.length + 1, w', ?_,
      h.migrating.symm ▸ hset⟩
    simp only [resumeRebalanceSlot, Net.reachable_nodes, h.migrating, h.split]
    rw [if_neg (not_not.2 h.serving.owner), if_neg h.marked, haddr, hsend]
    simp only
    rw [hdrain]
    exact congrArg some hfin

end

section

variable {sha1 : Bytes → Bytes} {tr : Transfer V P} {source target : Addr} {host port : Bytes}
  {slot : Slot} {w w₁ w₂ w₃ w₄ : Net V} {e : ControlError}

theorem move_of_unannounced (hsend : sendClusterControlCommand sha1 target
      (.setSlot slot (.importing (clusterNodeID sha1 (w.nodes source).topology.nodeAddr))) w =
        (.ok (), w₁))
    (hlocal : runLocal source (fun saved n => n.handle sha1 saved
      (.setSlot slot (.migrating (clusterNodeID sha1 target)))) w₁ = (.ok (), w₂))
    (hsplit : splitHostPort target = some (host, port))
    (hdrain : drain tr source target host port slot false 0 fuel w₂ = some (.ok (), w₃))
    (hann : sendAll sha1 (.setSlot slot (.node (clusterNodeID sha1 target)))
      (announced (w.nodes source).topology) w₃ = (.error e, w₄)) :
    rebalanceMoveOneSlot sha1 tr source target slot fuel w = some (.error e, w₄) := by
  have hfin : finalizeRebalanceSlotOwners sha1 source (w.nodes source).topology slot target w₃ =
      (.error e, w₄) := Action.bind_error hann
  simp only [rebalanceMoveOneSlot]
  rw [hsend]
  simp only
  rw [hlocal]
  simp only [hsplit]
  rw [hdrain]
  exact congrArg some hfin

end

/-! ## A move between two of three nodes -/

namespace ThreeNodes

def a : Addr := [97, 58, 49]
def b : Addr := [98, 58, 49]
def c : Addr := [99, 58, 49]

def key : Bytes := [107]

def slot : Slot := clusterKeySlot key

def tr : Transfer Unit Unit := ⟨fun v => some (some v), fun _ => 1, some⟩

/-- All nodes know each other, `a` owns every slot and moves it to `dest`. -/
def node (dest : Addr) (store : List (Bytes × Unit)) (addr : Addr) : Node Unit :=
  { topology :=
      { enabled := true, nodeAddr := addr, epoch := 0, knownNodes := [a, b, c],
        owners := fun _ => a, migrating := fun _ => if addr = a then dest else [],
        importing := fun _ => [] }
    advertiseAddr := addr, peers := [], store := if addr = a then store else [],
    rebalancing := false }

/-- The move to `b` stopped before any key went. -/
def stopped : Net Unit := ⟨node b [(key, ())], []⟩

theorem announced_eq (dest : Addr) (store : List (Bytes × Unit)) :
    announced (node dest store a).topology = [b, c] := by
  change ((clusterKnownNodesFromState (node [] [] a).topology).filter fun x => x ≠ a) = _
  decide

def fresh : Net Unit := ⟨node [] [], [.delivered, .delivered, .delivered, .lost]⟩

theorem resumable : Resumable id tr stopped a slot b [98] [49] := by
  refine ⟨⟨rfl, rfl⟩, rfl, by decide, by decide, by decide, ⟨rfl, ⟨a, by decide⟩, by decide⟩, ?_,
    ?_, by decide⟩
  · intro k hk
    obtain rfl : k = key := by
      have hmem : k ∈ [key] := hk
      exact mem_singleton.1 hmem
    exact ⟨by decide, (), by decide, (), rfl, rfl, rfl⟩
  · intro x hx
    have hx' : x ∈ [b, c] := announced_eq b [(key, ())] ▸ hx
    simp only [mem_cons, not_mem_nil, or_false] at hx'
    rcases hx' with rfl | rfl
    · exact ⟨by decide, rfl, by decide, by decide⟩
    · exact ⟨by decide, rfl, by decide, by decide⟩

end ThreeNodes

open ThreeNodes in
theorem resume_completes_stopped : ∃ fuel w',
    resumeRebalanceSlot id tr a slot fuel stopped.reachable = some (.ok (), w') ∧
      ∀ x ∈ a :: (stopped.nodes a).topology.migrating slot ::
          announced (stopped.nodes a).topology,
        Settled slot ((stopped.nodes a).topology.migrating slot) (w'.nodes x) :=
  (resume_completes_iff id tr stopped a slot rfl).2 ⟨b, [98], [49], resumable⟩

namespace ThreeNodes

theorem knows (dest : Addr) (store : List (Bytes × Unit)) (addr : Addr) {x : Addr}
    (hx : x ∈ [a, b, c]) :
    clusterNodeAddressByID id (node dest store addr).topology (clusterNodeID id x) = some x := by
  unfold clusterNodeAddressByID
  simp only [mem_cons, not_mem_nil, or_false] at hx
  rcases hx with rfl | rfl | rfl <;> rfl

/-- The network with these tables at `a` and `b`. -/
def part (fates : List Fate) (ta tb : Topology) : Net Unit :=
  ((Net.mk (node [] []) fates).setTopology a ta).setTopology b tb

theorem fresh_eq : fresh = part [.delivered, .delivered, .delivered, .lost]
    (node [] [] a).topology (node [] [] b).topology := by
  simp [fresh, part, setTopology, update]

section

variable (fates : List Fate) (ta tb t : Topology)

theorem part_b : (part fates ta tb).nodes b = { node [] [] b with topology := tb } := rfl

theorem part_setA : (part fates ta tb).setTopology a t = part fates t tb := by
  have hne : a ≠ b := by decide
  simp [part, setTopology, update, Function.update_comm hne, Function.update_of_ne hne.symm]

theorem part_setB : (part fates ta tb).setTopology b t = part fates ta t := by
  simp [part, setTopology, update]

end

theorem move_stops : ∃ ta tb, ta.migrating slot = b ∧ tb.owners slot = b ∧ tb.nodeAddr = b ∧
    rebalanceMoveOneSlot id tr a b slot 1 fresh = some (.error .noAnswer, part [] ta tb) := by
  -- `b` marks the slot as importing
  have himp : TakesImport id slot a (node [] [] b).topology :=
    ⟨rfl, ⟨a, knows [] [] b (by decide)⟩, by decide⟩
  obtain ⟨t₁, ht₁⟩ := TakesImport.handle (n := node [] [] b) himp
  have hsend₁ := @sendClusterControlCommand_of_delivered Unit id b
    (.setSlot slot (.importing (clusterNodeID id a))) fresh
    (part [.delivered, .delivered, .lost] (node [] [] a).topology (node [] [] b).topology) t₁
    (by rw [fresh_eq]; rfl) (by decide) (by rw [part_b]; exact ht₁)
  rw [part_setB] at hsend₁
  -- `a` marks it as migrating
  obtain ⟨e₂, ht₂⟩ := @handle_migrating_of Unit id slot (node [] [] a) b rfl rfl
    (knows [] [] a (by decide))
  have hlocal := @runLocal_of_delivered Unit a
    (part [.delivered, .delivered, .lost] (node [] [] a).topology t₁)
    (fun saved n => n.handle id saved (.setSlot slot (.migrating (clusterNodeID id b))))
    (part [.delivered, .lost] (node [] [] a).topology t₁) _ rfl ht₂
  rw [part_setA] at hlocal
  generalize hta : ({ (node [] [] a).topology with
    migrating := put (node [] [] a).topology.migrating slot b
    importing := put (node [] [] a).topology.importing slot []
    epoch := e₂ } : Topology) = t₂ at hlocal
  -- `b` is told that it owns the slot
  have htakes : TakesSlot id slot b ({ node [] [] b with topology := t₁ } : Node Unit) := by
    have hbefore : TakesSlot id slot b (node [] [] b) := ⟨rfl, knows [] [] b (by decide), by decide⟩
    obtain ⟨x, e, -, rfl⟩ := (handle_importing_ok ht₁).2
    exact hbefore.of_foreign rfl rfl rfl rfl (by decide)
  obtain ⟨t₃, ht₃⟩ := htakes.handle
  obtain ⟨owner, -, howner, -, hset, haddr⟩ := handle_node_ok ht₃
  rw [htakes.knows] at howner
  cases howner
  have hsend₃ := @sendClusterControlCommand_of_delivered Unit id b
    (.setSlot slot (.node (clusterNodeID id b))) (part [.delivered, .lost] t₂ t₁)
    (part [.lost] t₂ t₁) t₃ rfl (by decide) (by rw [part_b]; exact ht₃)
  rw [part_setB] at hsend₃
  have hlost : sendClusterControlCommand id c (.setSlot slot (.node (clusterNodeID id b)))
      (part [.lost] t₂ t₃) = (.error .noAnswer, part [] t₂ t₃) := by
    unfold sendClusterControlCommand
    rfl
  refine ⟨t₂, t₃, by rw [← hta]; exact put_same (node [] [] a).topology.migrating slot b, hset.1,
    ?_, ?_⟩
  · obtain ⟨x, e, -, rfl⟩ := (handle_importing_ok ht₁).2
    exact haddr
  have hdrain : drain tr a b [98] [49] slot false 0 1 (part [.delivered, .lost] t₂ t₁) =
      some (.ok (), part [.delivered, .lost] t₂ t₁) := by
    subst hta
    rfl
  have hann : sendAll id (.setSlot slot (.node (clusterNodeID id b)))
      (announced (node [] [] a).topology) (part [.delivered, .lost] t₂ t₁) =
        (.error .noAnswer, part [] t₂ t₃) := by
    rw [announced_eq, sendAll, Action.bind_ok hsend₃]
    exact Action.bind_error hlost
  exact move_of_unannounced hsend₁ hlocal (by decide) hdrain hann

end ThreeNodes

open ThreeNodes in
/-- The move to `b` stops when the announcement to `c` is lost, after `b` was told that it owns
the slot. Although every node answers from then on, the move can never be resumed: `b` refuses to
take in a slot it owns. -/
theorem resume_refused_by_owner : ∃ w₁,
    rebalanceMoveOneSlot id tr a b slot 1 fresh = some (.error .noAnswer, w₁) ∧
      (w₁.nodes a).topology.migrating slot = b ∧ (w₁.nodes b).topology.owners slot = b ∧
        ∀ fuel w₂, resumeRebalanceSlot id tr a slot fuel w₁.reachable ≠ some (.ok (), w₂) := by
  obtain ⟨ta, tb, hmig, howner, haddr, hmove⟩ := move_stops
  refine ⟨part [] ta tb, hmove, hmig, howner, fun fuel w₂ hres => ?_⟩
  obtain ⟨-, -, host, port, w₁, -, -, hsend, -⟩ := resume_eq_ok hres hmig
  obtain ⟨-, ⟨saved, t, ht, -⟩, -⟩ := sendClusterControlCommand_ok hsend
  exact (handle_importing_ok ht).1.foreign (howner.trans haddr.symm)

end Cluster
end SnugKV
