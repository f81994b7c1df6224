import SnugKV.Index.Operations

/-!
# Refinement — the index is a finite map

The abstract side of the index: a finite map is a partial function from keys to values, and
each call changes it as its name says (`Op.apply`).  The table refines it: for any hash, a
sequence of calls within their preconditions runs without a panic and leaves a table that
answers every lookup, and lists its pairs, as the map does.
-/

namespace SnugKV
namespace Index

open Lib Probe

/-! ## Calls -/

inductive Op where
  | set (key : Key) (value : UInt32)
  | setKnownHashed (key : Key) (value : UInt32) (h : UInt64) (present : Bool)
  | delete (key : Key)
  | reserveKeys (n : Int)
  | compact
  deriving Repr

/-- What the table is for: a finite map. -/
abbrev Contents := Key → Option UInt32

namespace Op

def apply (m : Contents) : Op → Contents
  | set key value => Function.update m key (some value)
  | setKnownHashed key value _ _ => Function.update m key (some value)
  | delete key => Function.update m key none
  | reserveKeys _ => m
  | compact => m

variable (hash : Key → UInt64)

def exec (t : Table) : Op → Except Panic Table
  | set key value => Table.set hash t key value
  | setKnownHashed key value h present => Index.setKnownHashed hash t key value h present
  | delete key => deleteHashed hash t key (hash key)
  | reserveKeys n => Index.reserveKeys hash t n
  | compact => Index.compact hash t

/-- The log has room for the record of a key that is not in the table yet. -/
def Room (t : Table) (m : Contents) (key : Key) : Prop :=
  m key = none → t.log.length + keyRecordSize key ≤ maxLogBytes

instance (t : Table) (m : Contents) (key : Key) : Decidable (Room t m key) :=
  inferInstanceAs (Decidable (_ → _))

/-- What the callers owe: values and key logs within the documented limits and, where the
caller passes a hash or an existence result, the right one. -/
def Pre (t : Table) (m : Contents) : Op → Prop
  | set key value => value ≤ maxValue ∧ Room t m key
  | setKnownHashed key value h present =>
    value ≤ maxValue ∧ Room t m key ∧ h = hash key ∧ present = (m key).isSome
  | _ => True

instance (t : Table) (m : Contents) : ∀ op : Op, Decidable (Pre hash t m op)
  | set key value => inferInstanceAs (Decidable (value ≤ maxValue ∧ Room t m key))
  | setKnownHashed key value h present => inferInstanceAs (Decidable
      (value ≤ maxValue ∧ Room t m key ∧ h = hash key ∧ present = (m key).isSome))
  | delete _ => inferInstanceAs (Decidable True)
  | reserveKeys _ => inferInstanceAs (Decidable True)
  | compact => inferInstanceAs (Decidable True)

end Op

/-! ## One call -/

/-- The table holds the pairs of the map. -/
structure Refines (hash : Key → UInt64) (t : Table) (m : Contents) : Prop where
  wf : t.WF hash
  models : Models t.cells m

section Step

variable {hash : Key → UInt64} {t : Table} {m : Contents}

theorem refines_new : Refines hash Table.new (fun _ => none) where
  wf := { (@core_empty hash 0 Table.new rfl rfl).1 with
      size := Or.inl rfl
      bytes := rfl
      room := Nat.zero_le _ }
  models := fun _ _ => ⟨nofun, nofun⟩

variable {k : Key} {v : UInt32}

section

variable (h : Refines hash t m)

include h

theorem Refines.cell (hk : m k = some v) :
    ∃ i : Nat, t.cells[i]? = some (Cell.live k v) :=
  mem_entries.1 ((h.models k v).2 hk)

theorem Refines.insert_present {v₀ : UInt32} (hk : m k = some v₀) (hv : v ≤ maxValue) :
    ∃ t', insertHashed t k v (hash k) = .ok t' ∧
      Refines hash t' (Function.update m k (some v)) := by
  obtain ⟨j, hj⟩ := h.cell hk
  obtain ⟨t', hok, hwf, i, v₁, hcell, hcells⟩ := insertHashed_update h.wf hv hj
  refine ⟨t', hok, hwf, ?_⟩
  rw [hcells]
  exact h.models.update (h.wf.probed (t.slots_ne_nil hj)) hcell v

theorem Refines.grow :
    ∃ t', growForInsert hash t = .ok t' ∧ Refines hash t' m ∧ t'.count < t'.slots.length ∧
      t'.log.length ≤ t.log.length := by
  obtain ⟨t', hok, hwf, hperm, hcount, hlog⟩ := growForInsert_spec h.wf
  exact ⟨t', hok, ⟨hwf, h.models.of_perm hperm⟩, hcount, hlog⟩

theorem Refines.inserted (hk : m k = none) {t' : Table} (hins : Inserted hash t t' k v) :
    Refines hash t' (Function.update m k (some v)) := by
  obtain ⟨i, hi, hcells⟩ := hins.cell
  refine ⟨hins.wf, ?_⟩
  rw [hcells]
  exact h.models.place hi hk v

theorem Refines.set (hv : v ≤ maxValue) (hroom : Op.Room t m k) :
    ∃ t', Table.set hash t k v = .ok t' ∧ Refines hash t' (Function.update m k (some v)) := by
  unfold Table.set
  rw [getHashed_spec h.wf.toCore h.models k]
  cases hk : m k with
  | some v₀ => exact h.insert_present hk hv
  | none =>
    obtain ⟨t₁, hgrow, h₁, hcount, hlog⟩ := h.grow
    have hfit := hroom hk
    obtain ⟨t', hok, hins⟩ := insertHashed_absent h₁.wf hv (h₁.models.absent hk) hcount (by omega)
    exact ⟨t', by simp only [hgrow, hok], h₁.inserted hk hins⟩

theorem Refines.setKnownHashed {present : Bool}
    (hv : v ≤ maxValue) (hroom : Op.Room t m k) (hpresent : present = (m k).isSome) :
    ∃ t', Index.setKnownHashed hash t k v (hash k) present = .ok t' ∧
      Refines hash t' (Function.update m k (some v)) := by
  unfold Index.setKnownHashed
  rw [getHashed_spec h.wf.toCore h.models k, hpresent]
  cases hk : m k with
  | some v₀ => exact h.insert_present hk hv
  | none =>
    obtain ⟨t₁, hgrow, h₁, hcount, hlog⟩ := h.grow
    have hfit := hroom hk
    obtain ⟨t', hok, hins⟩ := insertKnownAbsent_spec h₁.wf hv (h₁.models.absent hk) hcount
      (by omega)
    exact ⟨t', by simp [hgrow, hok], h₁.inserted hk hins⟩

theorem Refines.delete (k : Key) :
    ∃ t', deleteHashed hash t k (hash k) = .ok t' ∧ Refines hash t' (Function.update m k none) := by
  rcases lookupSlot_spec h.wf.toCore k with ⟨i, v, hslot, hcell⟩ | ⟨hslot, habsent⟩
  · obtain ⟨t', hok, hwf, hperm⟩ := deleteHashed_present h.wf hslot hcell
    refine ⟨t', hok, hwf, ?_⟩
    exact Models.of_perm (h.models.erase (h.wf.probed (t.slots_ne_nil hcell)) hcell) hperm
  · have hnone : m k = none := by
      cases hk : m k with
      | none => rfl
      | some v =>
        obtain ⟨i, hi⟩ := h.cell hk
        exact absurd hi (habsent i v)
    refine ⟨t, by simp [deleteHashed, hslot], ?_⟩
    rwa [← hnone, Function.update_eq_self]

theorem Refines.reserve (n : Int) : ∃ t', reserveKeys hash t n = .ok t' ∧ Refines hash t' m := by
  obtain ⟨t', hok, hwf, hperm⟩ := reserveKeys_spec h.wf n
  exact ⟨t', hok, hwf, h.models.of_perm hperm⟩

theorem Refines.exec (op : Op) (hpre : op.Pre hash t m) :
    ∃ t', op.exec hash t = .ok t' ∧ Refines hash t' (op.apply m) := by
  cases op with
  | set key value => exact h.set hpre.1 hpre.2
  | setKnownHashed key value hv present =>
    obtain ⟨hval, hroom, rfl, hpresent⟩ := hpre
    exact h.setKnownHashed hval hroom hpresent
  | delete key => exact h.delete key
  | reserveKeys n => exact h.reserve n
  | compact => exact h.reserve t.count

end

end Step

/-! ## Sequences of calls -/

section Runs

variable (hash : Key → UInt64)

def runOps (ops : List Op) (t : Table) : Except Panic Table :=
  ops.foldlM (Op.exec hash) t

def applyOps (ops : List Op) (m : Contents) : Contents :=
  ops.foldl Op.apply m

def Legal : Table → Contents → List Op → Prop
  | _, _, [] => True
  | t, m, op :: ops => op.Pre hash t m ∧
      match op.exec hash t with
      | .ok t' => Legal t' (op.apply m) ops
      | .error _ => True

instance decidableLegal : ∀ (t : Table) (m : Contents) (ops : List Op),
    Decidable (Legal hash t m ops)
  | _, _, [] => inferInstanceAs (Decidable True)
  | t, m, op :: ops =>
    have : Decidable (match op.exec hash t with
        | .ok t' => Legal hash t' (op.apply m) ops
        | .error _ => True) :=
      match op.exec hash t with
      | .ok t' => decidableLegal t' (op.apply m) ops
      | .error _ => inferInstanceAs (Decidable True)
    inferInstanceAs (Decidable (op.Pre hash t m ∧ _))

variable {hash}

theorem runOps_refines (ops : List Op) :
    ∀ (t : Table) (m : Contents), Refines hash t m → Legal hash t m ops →
      ∃ t', runOps hash ops t = .ok t' ∧ Refines hash t' (applyOps ops m) := by
  induction ops with
  | nil =>
    intro t m h _
    exact ⟨t, rfl, h⟩
  | cons op ops ih =>
    intro t m h hlegal
    obtain ⟨hpre, hrest⟩ := hlegal
    obtain ⟨t₁, hexec, h₁⟩ := h.exec op hpre
    rw [hexec] at hrest
    obtain ⟨t', hrun, h'⟩ := ih t₁ (op.apply m) h₁ hrest
    refine ⟨t', ?_, h'⟩
    rw [runOps, List.foldlM_cons, hexec]
    exact hrun

end Runs

/-- The index refines a finite map: for every hash and every sequence of calls within their
preconditions, from the empty table, no call panics, every lookup gives the value last set and
not deleted since, and the iteration yields each pair once. -/
theorem table_refines_map (hash : Key → UInt64) (ops : List Op)
    (hlegal : Legal hash Table.new (fun _ => none) ops) :
    ∃ t, runOps hash ops Table.new = .ok t ∧
      (∀ key, getHashed t key (hash key) = applyOps ops (fun _ => none) key) ∧
      (t.all.map Prod.fst).Nodup ∧
      ∀ key value, (key, value) ∈ t.all ↔ applyOps ops (fun _ => none) key = some value := by
  obtain ⟨t, hrun, h⟩ := runOps_refines ops Table.new _ refines_new hlegal
  refine ⟨t, hrun, getHashed_spec h.wf.toCore h.models, ?_, ?_⟩
  · rw [all_eq_entries]
    exact h.wf.keys_nodup
  · intro key value
    rw [all_eq_entries]
    exact h.models key value

/-- Four keys that all collide, one of them deleted, in a reserved table that is compacted. -/
theorem table_refines_map_colliding :
    ∃ t, runOps (fun _ => 7)
        [.reserveKeys 2, .set [1] 10, .set [2] 20, .setKnownHashed [] 30 7 false, .delete [2],
          .setKnownHashed [1] 11 7 true, .set [4] 40, .compact] Table.new = .ok t ∧
      getHashed t [1] 7 = some 11 ∧ getHashed t [2] 7 = none := by
  obtain ⟨t, hrun, hget, _⟩ := table_refines_map (fun _ => 7)
    [.reserveKeys 2, .set [1] 10, .set [2] 20, .setKnownHashed [] 30 7 false, .delete [2],
      .setKnownHashed [1] 11 7 true, .set [4] 40, .compact] (by decide +kernel)
  exact ⟨t, hrun, hget [1], hget [2]⟩

end Index
end SnugKV
