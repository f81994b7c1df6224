import SnugKV.Cluster.Topology
import SnugKV.Lib.Action

/-!
# Control commands — what nodes of the cluster send each other

A control operation runs on one node and sends its commands one after the other; the first one
that is not answered with `+OK` ends it. What happens to a command on its way is the fate of that
command:

* it may never arrive;
* it may be carried out while the answer is lost;
* the receiver may fail to write its sidecar file;
* otherwise it is carried out and answered.

An operation reads the fates from a list; after its end every command arrives.
-/

namespace SnugKV
namespace Cluster

open Lib List

/-! ## Nodes and the network -/

structure Node (V : Type) where
  topology : Topology
  /-- `failoverAdvertiseAddr` -/
  advertiseAddr : Addr
  /-- The other members of the node's failover group. -/
  peers : List Addr
  /-- The keys of the store with their values. -/
  store : List (Bytes × V)
  /-- `clusterRebalanceMu` is held. -/
  rebalancing : Bool

/-- What becomes of one command. -/
inductive Fate where
  | delivered
  | lost
  | unanswered
  | unsaved
  deriving DecidableEq, Repr

structure Net (V : Type) where
  nodes : Addr → Node V
  fates : List Fate

variable {V : Type}

/-- `clusterSlotHasKeys` -/
def Node.hasKeys (n : Node V) (slot : Slot) : Bool :=
  n.store.any fun kv => clusterKeySlot kv.1 == slot

namespace Net

def update (w : Net V) (a : Addr) (f : Node V → Node V) : Net V :=
  { w with nodes := Function.update w.nodes a (f (w.nodes a)) }

def setTopology (w : Net V) (a : Addr) (t : Topology) : Net V :=
  w.update a fun n => { n with topology := t }

def setRebalancing (w : Net V) (a : Addr) (b : Bool) : Net V :=
  w.update a fun n => { n with rebalancing := b }

/-- From here on every command arrives, is saved and is answered. -/
def reachable (w : Net V) : Net V := { w with fates := [] }

def nextFate (w : Net V) : Fate × Net V :=
  match w.fates with
  | [] => (.delivered, w)
  | f :: fs => (f, { w with fates := fs })

section

variable (w : Net V)

include w

@[simp] theorem update_self (a : Addr) (f : Node V → Node V) :
    (w.update a f).nodes a = f (w.nodes a) := by
  simp [update]

theorem update_ne {a b : Addr} (f : Node V → Node V) (h : b ≠ a) :
    (w.update a f).nodes b = w.nodes b := by
  simp [update, h]

theorem setTopology_self (a : Addr) (t : Topology) :
    (w.setTopology a t).nodes a = { w.nodes a with topology := t } :=
  update_self ..

theorem setTopology_ne {a b : Addr} (t : Topology) (h : b ≠ a) :
    (w.setTopology a t).nodes b = w.nodes b :=
  update_ne _ _ h

@[simp] theorem reachable_nodes : w.reachable.nodes = w.nodes := rfl

@[simp] theorem nextFate_nodes : w.nextFate.2.nodes = w.nodes := by
  unfold nextFate
  split <;> rfl

end

theorem nextFate_of_nil {w : Net V} (h : w.fates = []) : w.nextFate = (.delivered, w) := by
  unfold nextFate
  rw [h]

end Net

/-! ## Commands -/

inductive Request where
  /-- `CLUSTER SETSLOT` -/
  | setSlot (slot : Slot) (action : SlotAction)
  /-- `CLUSTER FAILOVER-OWNER` -/
  | failoverOwner (old new : Addr) (digest : Bytes)

section

variable (sha1 : Bytes → Bytes)

/-- The tables of the node after a command it accepts. -/
def Node.handle (saved : Bool) (n : Node V) : Request → Except ControlError Topology
  | .setSlot slot action =>
    executeClusterSetSlot sha1 saved (n.hasKeys slot) slot action n.topology
  | .failoverOwner old new digest =>
    -- `executeClusterFailoverOwner` holds `clusterRebalanceMu` for the whole call
    if n.rebalancing then .error .busy
    else replaceClusterOwnerFenced sha1 saved old new digest n.topology

/-- `sendClusterControlCommand` -/
def sendClusterControlCommand (addr : Addr) (r : Request) :
    Action (Net V) ControlError Unit := fun w =>
  if !dialable addr then (.error .undialable, w)
  else
    match w.nextFate with
    | (.lost, w) => (.error .noAnswer, w)
    | (fate, w) =>
      match (w.nodes addr).handle sha1 (fate != .unsaved) r with
      | .error e => (.error e, w)
      | .ok t =>
        (if fate = .unanswered then .error .noAnswer else .ok (), w.setTopology addr t)

def runLocal (addr : Addr) (f : Bool → Node V → Except ControlError Topology) :
    Action (Net V) ControlError Unit := fun w =>
  match w.nextFate with
  | (fate, w) =>
    match f (fate != .unsaved) (w.nodes addr) with
    | .error e => (.error e, w)
    | .ok t => (.ok (), w.setTopology addr t)

def sendAll (r : Request) : List Addr → Action (Net V) ControlError Unit
  | [] => pure ()
  | a :: rest => do
      sendClusterControlCommand sha1 a r
      sendAll r rest

end

/-! ## What a command does -/

section

variable {sha1 : Bytes → Bytes} {a : Addr} {r : Request} {w w' : Net V}

/-- Node `n` has carried out the command, its other state untouched. -/
def Node.Took (sha1 : Bytes → Bytes) (r : Request) (n n' : Node V) : Prop :=
  ∃ saved t, n.handle sha1 saved r = .ok t ∧ n' = { n with topology := t }

/-- Whatever the outcome, only the receiver can have changed, by carrying out the command. -/
theorem sendClusterControlCommand_effect {out : Except ControlError Unit}
    (h : sendClusterControlCommand sha1 a r w = (out, w')) :
    (∀ b, b ≠ a → w'.nodes b = w.nodes b) ∧
      (w'.nodes a = w.nodes a ∧ out.isOk = false ∨
        (w.nodes a).Took sha1 r (w'.nodes a) ∧ dialable a = true) := by
  unfold sendClusterControlCommand at h
  split at h
  · cases h
    exact ⟨fun b _ => rfl, .inl ⟨rfl, rfl⟩⟩
  · rename_i hdial
    have hnodes := w.nextFate_nodes
    rcases hw : w.nextFate with ⟨fate, w₁⟩
    rw [hw] at h hnodes
    split at h
    · rename_i heq
      cases heq
      cases h
      exact ⟨fun b _ => congrFun hnodes b, .inl ⟨congrFun hnodes a, rfl⟩⟩
    · rename_i fate' w₂ hne heq
      cases heq
      split at h
      · cases h
        exact ⟨fun b _ => congrFun hnodes b, .inl ⟨congrFun hnodes a, rfl⟩⟩
      · rename_i t ht
        cases h
        rw [congrFun hnodes a] at ht
        refine ⟨fun b hb => ?_, .inr ⟨⟨_, t, ht, ?_⟩, by simpa using hdial⟩⟩
        · rw [Net.setTopology_ne _ _ hb]
          exact congrFun hnodes b
        · rw [Net.setTopology_self, congrFun hnodes a]

theorem sendClusterControlCommand_ok (h : sendClusterControlCommand sha1 a r w = (.ok (), w')) :
    dialable a = true ∧ (w.nodes a).Took sha1 r (w'.nodes a) ∧
      ∀ b, b ≠ a → w'.nodes b = w.nodes b := by
  obtain ⟨hothers, ⟨-, hfail⟩ | ⟨htook, hdial⟩⟩ := sendClusterControlCommand_effect h
  · cases hfail
  · exact ⟨hdial, htook, hothers⟩

theorem sendClusterControlCommand_of_delivered {w₁ : Net V} {t : Topology}
    (hw : w.nextFate = (.delivered, w₁)) (hdial : dialable a = true)
    (h : (w₁.nodes a).handle sha1 true r = .ok t) :
    sendClusterControlCommand sha1 a r w = (.ok (), w₁.setTopology a t) := by
  unfold sendClusterControlCommand
  rw [if_neg (by simp [hdial]), hw]
  have hh : (w₁.nodes a).handle sha1 (Fate.delivered != Fate.unsaved) r = .ok t := h
  simp only [hh]
  rfl

variable {f : Bool → Node V → Except ControlError Topology}

theorem runLocal_ok (h : runLocal a f w = (.ok (), w')) :
    (∃ saved t, f saved (w.nodes a) = .ok t ∧ w'.nodes a = { w.nodes a with topology := t }) ∧
      ∀ b, b ≠ a → w'.nodes b = w.nodes b := by
  unfold runLocal at h
  have hnodes := w.nextFate_nodes
  rcases hw : w.nextFate with ⟨fate, w₁⟩
  rw [hw] at h hnodes
  simp only at h hnodes
  split at h
  · cases h
  · rename_i t ht
    cases h
    rw [hnodes] at ht
    refine ⟨⟨_, t, ht, ?_⟩, fun b hb => ?_⟩
    · rw [Net.setTopology_self, hnodes]
    · rw [Net.setTopology_ne _ _ hb, hnodes]

theorem runLocal_error {e : ControlError} (h : runLocal a f w = (.error e, w')) :
    w'.nodes = w.nodes := by
  unfold runLocal at h
  have hnodes := w.nextFate_nodes
  rcases hw : w.nextFate with ⟨fate, w₁⟩
  simp only at h hnodes
  split at h
  · cases h
    exact hnodes
  · cases h

theorem runLocal_of_delivered {w₁ : Net V} {t : Topology} (hw : w.nextFate = (.delivered, w₁))
    (h : f true (w₁.nodes a) = .ok t) : runLocal a f w = (.ok (), w₁.setTopology a t) := by
  unfold runLocal
  rw [hw]
  have hh : f (Fate.delivered != Fate.unsaved) (w₁.nodes a) = .ok t := h
  simp only [hh]

theorem sendAll_effect {out : Except ControlError Unit} : ∀ {as : List Addr} {w w' : Net V},
    as.Nodup → sendAll sha1 r as w = (out, w') →
      ∀ b, w'.nodes b = w.nodes b ∨ (b ∈ as ∧ (w.nodes b).Took sha1 r (w'.nodes b)) := by
  intro as
  induction as with
  | nil =>
    intro w w' _ h b
    cases h
    exact .inl rfl
  | cons a rest ih =>
    intro w w' hnd h b
    obtain ⟨ha, hrest⟩ := nodup_cons.1 hnd
    rcases hs : sendClusterControlCommand sha1 a r w with ⟨e | u, w₁⟩
    · rw [sendAll, Action.bind_error hs] at h
      cases h
      have heff := sendClusterControlCommand_effect hs
      by_cases hb : b = a
      · subst hb
        exact heff.2.imp And.left fun ht => ⟨mem_cons_self, ht.1⟩
      · exact .inl (heff.1 b hb)
    · rw [sendAll, Action.bind_ok hs] at h
      have heff := sendClusterControlCommand_effect hs
      have hlater := ih hrest h b
      by_cases hb : b = a
      · -- the receiver of the first command is not in the rest of the list
        subst hb
        rw [hlater.resolve_right fun hin => ha hin.1]
        exact heff.2.imp And.left fun ht => ⟨mem_cons_self, ht.1⟩
      · rw [heff.1 b hb] at hlater
        exact hlater.imp_right fun hin => ⟨mem_cons_of_mem _ hin.1, hin.2⟩

theorem sendAll_ok : ∀ {as : List Addr} {w w' : Net V}, as.Nodup →
    sendAll sha1 r as w = (.ok (), w') →
      (∀ b ∈ as, dialable b = true ∧ (w.nodes b).Took sha1 r (w'.nodes b)) ∧
        ∀ b, b ∉ as → w'.nodes b = w.nodes b := by
  intro as
  induction as with
  | nil =>
    intro w w' _ h
    cases h
    exact ⟨fun b hb => absurd hb not_mem_nil, fun b _ => rfl⟩
  | cons a rest ih =>
    intro w w' hnd h
    obtain ⟨ha, hrest⟩ := nodup_cons.1 hnd
    obtain ⟨⟨⟩, w₁, hs, h⟩ := Action.bind_eq_ok.1 h
    obtain ⟨hdial, htook, hothers⟩ := sendClusterControlCommand_ok hs
    obtain ⟨htail, hout⟩ := ih hrest h
    refine ⟨fun b hb => ?_, fun b hb => ?_⟩
    · rcases mem_cons.1 hb with rfl | hb
      · rw [hout b ha]
        exact ⟨hdial, htook⟩
      · have hne : b ≠ a := fun hba => ha (hba ▸ hb)
        rw [← hothers b hne]
        exact htail b hb
    · rw [mem_cons, not_or] at hb
      rw [hout b hb.2, hothers b hb.1]

theorem sendAll_of_reachable : ∀ {as : List Addr} {w : Net V}, as.Nodup → w.fates = [] →
    (∀ b ∈ as, dialable b = true ∧ ∃ t, (w.nodes b).handle sha1 true r = .ok t) →
      ∃ w', sendAll sha1 r as w = (.ok (), w') ∧ w'.fates = [] := by
  intro as
  induction as with
  | nil => exact fun _ hw _ => ⟨_, rfl, hw⟩
  | cons a rest ih =>
    intro w hnd hw h
    obtain ⟨ha, hrest⟩ := nodup_cons.1 hnd
    obtain ⟨hdial, t, ht⟩ := h a mem_cons_self
    have hs := sendClusterControlCommand_of_delivered (Net.nextFate_of_nil hw) hdial ht
    obtain ⟨w', hw', hfates⟩ := @ih (w.setTopology a t) hrest hw (by
      intro b hb
      have hne : b ≠ a := fun hba => ha (hba ▸ hb)
      rw [Net.setTopology_ne _ _ hne]
      exact h b (mem_cons_of_mem _ hb))
    exact ⟨w', (Action.bind_ok hs).trans hw', hfates⟩

end

end Cluster
end SnugKV
