import SnugKV.Index.KeyPack.Proofs
import SnugKV.Index.Words

/-!
# Invariant — the cells of the index

The word table is read through its cells (`Table.cells`): a live word is the key its record
decodes to and the value in its bits.  Under `Table.Core` the word loops are the loops of
`Lib.Probe` on those cells.  `Table.WF` adds the accounting of the key log.

Each operation gets one lemma that says what it does to the cells: `place_spec`,
`insertHashed_update`, `rebuildSlots_spec`, `rebuildPacked_spec`, `growForInsert_spec`,
`deleteHashed_spec`, `reserveKeys_spec`.
-/

namespace SnugKV
namespace Index

open Lib Probe List

/-! ## Cells -/

def cellOf (log : Bytes) (w : UInt64) : Cell Key UInt32 :=
  if w = 0 then .empty
  else if w &&& liveBit = 0 then .deleted
  else .live (keyAt log (slotOffset w).toNat) (slotValue w)

def Table.cells (t : Table) : List (Cell Key UInt32) :=
  t.slots.map (cellOf t.log)

@[simp] theorem Table.length_cells (t : Table) : t.cells.length = t.slots.length := length_map _

/-- A live word and the key it stands for. -/
structure Stored (hash : Key → UInt64) (log : Bytes) (w : UInt64) (k : Key) : Prop where
  record_at : RecordAt log (slotOffset w).toNat k
  fingerprint : slotFingerprint w = hashFingerprint (hash k)

/-- Every live word stands for a key. -/
def Sound (hash : Key → UInt64) (log : Bytes) (slots : List UInt64) : Prop :=
  ∀ w ∈ slots, w &&& liveBit ≠ 0 → ∃ k, Stored hash log w k

section Cells

variable {hash : Key → UInt64} {log : Bytes} {w : UInt64} {k : Key}

theorem ne_zero_of_live (h : w &&& liveBit ≠ 0) : w ≠ 0 := by
  rintro rfl
  exact h (by decide)

theorem cellOf_of_stored (h : Stored hash log w k) (hlive : w &&& liveBit ≠ 0) :
    cellOf log w = .live k (slotValue w) := by
  rw [cellOf, if_neg (ne_zero_of_live hlive), if_neg hlive, keyAt_of_recordAt h.record_at]

theorem RecordAt.append {offset : Nat} (h : RecordAt log offset k) (extra : Bytes) :
    RecordAt (log ++ extra) offset k := by
  obtain ⟨h64, rest, hdrop⟩ := h
  have hle : offset ≤ log.length := by
    by_contra hgt
    have := two_le_length_record k
    have hlen := congrArg length hdrop
    simp at hlen
    omega
  refine ⟨h64, rest ++ extra, ?_⟩
  rw [drop_append_of_le_length hle, hdrop, append_assoc]

theorem Stored.append (h : Stored hash log w k) (extra : Bytes) :
    Stored hash (log ++ extra) w k :=
  ⟨h.record_at.append extra, h.fingerprint⟩

theorem Sound.append {slots : List UInt64} (h : Sound hash log slots) (extra : Bytes) :
    Sound hash (log ++ extra) slots ∧
      slots.map (cellOf (log ++ extra)) = slots.map (cellOf log) := by
  constructor
  · intro w hw hlive
    obtain ⟨k, hk⟩ := h w hw hlive
    exact ⟨k, hk.append extra⟩
  · refine map_congr_left fun w hw => ?_
    by_cases hlive : w &&& liveBit = 0
    · simp [cellOf, hlive]
    · obtain ⟨k, hk⟩ := h w hw hlive
      rw [cellOf_of_stored hk hlive, cellOf_of_stored (hk.append extra) hlive]

theorem Table.getElem?_cells (t : Table) {i : Nat} (hi : i < t.slots.length) :
    t.cells[i]? = some (cellOf t.log (t.slots.getD i 0)) := by
  rw [Table.cells, getElem?_map, getD_eq_getElem?_getD, getElem?_eq_getElem hi]
  rfl

theorem Table.slots_ne_nil {t : Table} {i : Nat} {c : Cell Key UInt32} (h : t.cells[i]? = some c) :
    t.slots ≠ [] := by
  intro h0
  simp [Table.cells, h0] at h

theorem Table.getD_mem (t : Table) {i : Nat} (hi : i < t.slots.length) :
    t.slots.getD i 0 ∈ t.slots := by
  rw [getD_eq_getElem _ _ hi]
  exact getElem_mem hi

end Cells

/-! ## The invariant -/

/-- What every stage of every operation keeps. -/
structure Table.Core (hash : Key → UInt64) (t : Table) : Prop where
  sound : Sound hash t.log t.slots
  probed : t.slots ≠ [] → WellProbed (fun k => probeStart (hash k) t.slots.length) t.cells
  count_eq : t.count = (entries t.cells).length
  filter : t.slots.length = initialCapacity → ∀ k v, (k, v) ∈ entries t.cells →
    t.tinyFilter &&& tinyFilterBits (hash k) = tinyFilterBits (hash k)

def liveBytes (es : List (Key × UInt32)) : Nat :=
  (es.map fun e => (record e.1).length).sum

/-- The invariant between operations: the log holds the live records and `deadBytes` dead
bytes, and never outgrows the offsets. -/
structure Table.WF (hash : Key → UInt64) (t : Table) : Prop extends t.Core hash where
  size : t.slots.length = 0 ∨ 4 ≤ t.slots.length
  bytes : t.deadBytes + liveBytes (entries t.cells) = t.log.length
  room : t.log.length ≤ maxLogBytes

section Loops

variable {hash : Key → UInt64} {t : Table}

theorem lookupBody_eq (h : Sound hash t.log t.slots) (key : Key) {i : Nat}
    (hi : i < t.slots.length) :
    lookupBody t key (hashFingerprint (hash key)) () i =
      findBody (fun k => decide (k = key)) t.cells () i := by
  unfold lookupBody findBody
  rw [t.getElem?_cells hi]
  set w := t.slots.getD i 0
  by_cases h0 : w = 0
  · simp [h0, cellOf]
  · by_cases hlive : w &&& liveBit = 0
    · simp [h0, hlive, cellOf]
    · obtain ⟨k, hk⟩ := h w (t.getD_mem hi) hlive
      rw [cellOf_of_stored hk hlive]
      simp only [h0, hlive, if_false, false_or, hk.fingerprint,
        keyEquals_of_recordAt hk.record_at, decide_eq_true_eq]
      by_cases hkey : k = key
      · simp [hkey]
      · simp [hkey]

theorem insertSlot_eq (h : Sound hash t.log t.slots) (hne : t.slots ≠ []) {found : UInt64 → Bool}
    {p : Key → Bool} (hfound : ∀ w ∈ t.slots, ∀ k, Stored hash t.log w k → found w = p k)
    (hv : UInt64) :
    insertSlot t.slots found hv = seek p t.cells (probeStart hv t.slots.length) := by
  have hpos : 0 < t.slots.length := length_pos_iff.2 hne
  have hbody : ∀ s i, i < t.slots.length →
      insertBody t.slots found s i = seekBody p t.cells s i := by
    intro s i hi
    unfold insertBody seekBody
    rw [t.getElem?_cells hi]
    set w := t.slots.getD i 0
    by_cases h0 : w = 0
    · simp [h0, cellOf]
    · by_cases hlive : w &&& liveBit = 0
      · simp [h0, hlive, cellOf]
      · obtain ⟨k, hk⟩ := h w (t.getD_mem hi) hlive
        simp [cellOf_of_stored hk hlive, hfound w (t.getD_mem hi) k hk, h0, hlive]
  unfold insertSlot seek
  rw [t.length_cells, scan_congr hbody t.slots.length _ none (probeStart_lt hv hpos).le hpos]

theorem lookupSlot_spec (h : t.Core hash) (key : Key) :
    (∃ i v, lookupSlot t key (hash key) = some i ∧ t.cells[i]? = some (Cell.live key v)) ∨
      (lookupSlot t key (hash key) = none ∧
        ∀ (i : Nat) (v : UInt32), t.cells[i]? ≠ some (Cell.live key v)) := by
  unfold lookupSlot
  by_cases hnil : t.slots.length = 0
  · have : t.cells = [] := length_eq_zero_iff.1 (by rw [t.length_cells, hnil])
    simp [hnil, this]
  · have hne : t.slots ≠ [] := fun h0 => hnil (by rw [h0]; rfl)
    have hpos : 0 < t.slots.length := Nat.pos_of_ne_zero hnil
    have hscan : (scan t.slots.length (lookupBody t key (hashFingerprint (hash key)))
        t.slots.length (probeStart (hash key) t.slots.length) ()).answer =
        find (fun k => decide (k = key)) t.cells (probeStart (hash key) t.slots.length) := by
      have hbody : ∀ s i, i < t.slots.length →
          lookupBody t key (hashFingerprint (hash key)) s i =
            findBody (fun k => decide (k = key)) t.cells s i :=
        fun _ _ hi => lookupBody_eq h.sound key hi
      rw [find, t.length_cells, scan_congr hbody _ _ () (probeStart_lt _ hpos).le hpos]
    rw [if_neg hnil, hscan]
    rcases find_spec (h.probed hne) key with ⟨i, v, hfind, hcell⟩ | ⟨hfind, habsent⟩
    · left
      refine ⟨i, v, ?_, hcell⟩
      rw [if_neg, hfind]
      rintro ⟨h4, _, hbits⟩
      exact hbits (h.filter h4 key v (mem_entries.2 ⟨i, hcell⟩))
    · right
      refine ⟨?_, habsent⟩
      rw [hfind]
      exact ite_self none

theorem word_of_cell (h : Sound hash t.log t.slots) {i : Nat} {k : Key} {v : UInt32}
    (hcell : t.cells[i]? = some (Cell.live k v)) :
    Stored hash t.log (t.slots.getD i 0) k ∧ slotValue (t.slots.getD i 0) = v := by
  have hi : i < t.slots.length := by
    have := (List.getElem?_eq_some_iff.1 hcell).1
    rwa [t.length_cells] at this
  rw [t.getElem?_cells hi] at hcell
  have hlive : t.slots.getD i 0 &&& liveBit ≠ 0 := by
    intro hdead
    simp only [cellOf, hdead, if_true] at hcell
    split at hcell <;> cases hcell
  obtain ⟨k', hstored⟩ := h _ (t.getD_mem hi) hlive
  rw [cellOf_of_stored hstored hlive] at hcell
  cases hcell
  exact ⟨hstored, rfl⟩

theorem getHashed_spec (h : t.Core hash) {m : Key → Option UInt32} (hm : Models t.cells m)
    (key : Key) : getHashed t key (hash key) = m key := by
  unfold getHashed
  rcases lookupSlot_spec h key with ⟨i, v, hslot, hcell⟩ | ⟨hslot, habsent⟩
  · rw [hslot, Option.map_some, (word_of_cell h.sound hcell).2]
    exact ((hm key v).1 (mem_entries.2 ⟨i, hcell⟩)).symm
  · rw [hslot, Option.map_none]
    cases hk : m key with
    | none => rfl
    | some v =>
      obtain ⟨i, hi⟩ := mem_entries.1 ((hm key v).2 hk)
      exact absurd hi (habsent i v)

theorem all_eq_entries (t : Table) : t.all = entries t.cells := by
  unfold Table.all entries Table.cells
  rw [filterMap_map]
  refine filterMap_congr fun w _ => ?_
  by_cases hlive : w &&& liveBit = 0
  · by_cases h0 : w = 0 <;> simp [cellOf, Cell.entry, h0, hlive]
  · simp [cellOf, Cell.entry, hlive, ne_zero_of_live hlive]

end Loops

end Index
end SnugKV
