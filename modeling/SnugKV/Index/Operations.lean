import SnugKV.Index.Invariant

/-!
# Operations — what each table operation does to the cells

One lemma for each operation: within its preconditions it succeeds, keeps the invariant and
writes one cell, or re-places all of them.  The rebuilds are folds over the old slot words, so
each has a lemma about one word and one, by induction, about the whole array.
-/

namespace SnugKV
namespace Index

open Lib Probe List

variable {hash : Key → UInt64}

/-! ## The invariant under small changes -/

variable {w : UInt64} {off v₀ : UInt32}

section Frame

variable {t : Table} {log : Bytes}

@[simp] theorem addFilter_slots (t : Table) (h : UInt64) : (addFilter t h).slots = t.slots := by
  unfold addFilter
  split <;> rfl

@[simp] theorem addFilter_log (t : Table) (h : UInt64) : (addFilter t h).log = t.log := by
  unfold addFilter
  split <;> rfl

@[simp] theorem addFilter_count (t : Table) (h : UInt64) : (addFilter t h).count = t.count := by
  unfold addFilter
  split <;> rfl

@[simp] theorem addFilter_deadBytes (t : Table) (h : UInt64) :
    (addFilter t h).deadBytes = t.deadBytes := by
  unfold addFilter
  split <;> rfl

@[simp] theorem addFilter_cells (t : Table) (h : UInt64) : (addFilter t h).cells = t.cells := by
  simp [Table.cells]

theorem Table.Core.addFilter (h : t.Core hash) (hv : UInt64) : (addFilter t hv).Core hash where
  sound := by simpa using h.sound
  probed := by simpa using h.probed
  count_eq := by simpa using h.count_eq
  filter := by
    intro h4 k v hkv
    rw [addFilter_slots] at h4
    rw [addFilter_cells] at hkv
    rw [Index.addFilter, if_pos h4]
    exact or_and_of_and (h.filter h4 k v hkv) _

theorem Table.Core.append (h : t.Core hash) (extra : Bytes) :
    ({ t with log := t.log ++ extra } : Table).Core hash ∧
      ({ t with log := t.log ++ extra } : Table).cells = t.cells := by
  obtain ⟨hsound, hcells⟩ := h.sound.append extra
  have hcells' : ({ t with log := t.log ++ extra } : Table).cells = t.cells := hcells
  refine ⟨⟨hsound, ?_, ?_, ?_⟩, hcells'⟩
  · intro hne
    rw [hcells']
    exact h.probed hne
  · rw [hcells']
    exact h.count_eq
  · intro h4 k v hkv
    rw [hcells'] at hkv
    exact h.filter h4 k v hkv

theorem fillSlot_cells (t : Table) (i : Nat) (w : UInt64) :
    (fillSlot t i w).cells = t.cells.set i (cellOf t.log w) := by
  simp [Table.cells, fillSlot, map_set]

theorem Sound.set {slots : List UInt64} (h : Sound hash log slots)
    (hw : w &&& liveBit ≠ 0 → ∃ k, Stored hash log w k) (i : Nat) :
    Sound hash log (slots.set i w) := by
  intro w' hw' hlive
  rcases mem_or_eq_of_mem_set hw' with hmem | rfl
  · exact h w' hmem hlive
  · exact hw hlive

theorem stored_slotWord {k : Key} {v : UInt32}
    (hfits : Fits (hashFingerprint (hash k)) v off) (hrec : RecordAt log off.toNat k) :
    Stored hash log (slotWord (hashFingerprint (hash k)) v off) k where
  record_at := by rwa [slotOffset_slotWord hfits]
  fingerprint := slotFingerprint_slotWord hfits

end Frame

/-! ## Placing a key -/

/-- `t'` is `t` with the absent pair `(k, v)` in one more cell. -/
structure Placed (t t' : Table) (k : Key) (v : UInt32) : Prop where
  cell : ∃ i, Vacant t.cells i ∧ t'.cells = t.cells.set i (.live k v)
  size : t'.slots.length = t.slots.length
  log : t'.log = t.log
  deadBytes : t'.deadBytes = t.deadBytes

variable {t : Table} {k : Key} {v : UInt32} {log : Bytes} {capacity : Nat}

theorem Placed.perm {t' : Table} (h : Placed t t' k v) :
    (entries t'.cells).Perm ((k, v) :: entries t.cells) := by
  obtain ⟨i, hi, hcells⟩ := h.cell
  rw [hcells]
  exact entries_place hi k v

theorem place_spec (h : t.Core hash) (hne : t.slots ≠ [])
    (hrec : RecordAt t.log off.toNat k) (hfits : Fits (hashFingerprint (hash k)) v off)
    (habsent : ∀ (i : Nat) (v' : UInt32), t.cells[i]? ≠ some (Cell.live k v'))
    (hroom : t.count < t.slots.length) :
    ∃ t', placeKnownAbsent t (hash k) v off = .ok t' ∧ t'.Core hash ∧ Placed t t' k v := by
  have hslot : insertSlot (addFilter t (hash k)).slots (fun _ => false) (hash k) =
      seek (fun _ => false) t.cells (probeStart (hash k) t.slots.length) := by
    rw [addFilter_slots]
    exact insertSlot_eq h.sound hne (fun _ _ _ _ => rfl) (hash k)
  obtain ⟨hpost, _⟩ := seek_spec (h.probed hne) (fun _ => false) k
  unfold placeKnownAbsent
  simp only [hslot]
  cases hseek : seek (fun _ => false) t.cells (probeStart (hash k) t.slots.length) with
  | none =>
    -- every cell is live, against the room that is left
    rw [hseek] at hpost
    have hfull := entries_length_of_full hpost
    rw [t.length_cells, ← h.count_eq] at hfull
    omega
  | some spot =>
    rw [hseek] at hpost
    cases spot with
    | found i =>
      obtain ⟨_, _, hfalse, _⟩ := hpost
      cases hfalse
    | vacant i =>
      obtain ⟨hvac, hreach⟩ := hpost
      have hf := h.addFilter (hash k)
      have hcell : cellOf (addFilter t (hash k)).log
          (slotWord (hashFingerprint (hash k)) v off) = .live k v := by
        rw [addFilter_log, cellOf_of_stored (stored_slotWord hfits hrec) (slotWord_live hfits),
          slotValue_slotWord hfits]
      have hcells := fillSlot_cells (addFilter t (hash k)) i
        (slotWord (hashFingerprint (hash k)) v off)
      rw [hcell, addFilter_cells] at hcells
      refine ⟨_, rfl, ⟨?_, ?_, ?_, ?_⟩, ⟨⟨i, hvac, hcells⟩, ?_, ?_, ?_⟩⟩
      · exact hf.sound.set (fun _ => ⟨k, by
          rw [addFilter_log]
          exact stored_slotWord hfits hrec⟩) i
      · intro _
        rw [hcells]
        simpa [fillSlot] using (h.probed hne).place v hreach habsent
      · rw [hcells, (entries_place hvac k v).length_eq]
        simp [fillSlot, h.count_eq]
      · intro h4 k' v' hkv
        rw [hcells, (entries_place hvac k v).mem_iff] at hkv
        simp only [fillSlot, addFilter_slots, length_set] at h4
        rcases mem_cons.1 hkv with heq | hold
        · cases heq
          rw [addFilter, if_pos h4]
          exact or_and_self _ _
        · have hold' : (k', v') ∈ entries (addFilter t (hash k)).cells := by
            rwa [addFilter_cells]
          exact hf.filter (by rwa [addFilter_slots]) k' v' hold'
      · simp [fillSlot]
      · simp [fillSlot]
      · simp [fillSlot]

/-! ## Rebuilding the slots -/

/-- The keys still to be placed are new and distinct. -/
def Fresh (t : Table) (es : List (Key × UInt32)) : Prop :=
  ((entries t.cells ++ es).map Prod.fst).Nodup

variable {es : List (Key × UInt32)}

theorem Fresh.absent (h : Fresh t ((k, v) :: es)) (i : Nat) (v' : UInt32) :
    t.cells[i]? ≠ some (Cell.live k v') := by
  intro hi
  have hmem : (k, v') ∈ entries t.cells := mem_entries.2 ⟨i, hi⟩
  rw [Fresh, map_append, nodup_append] at h
  exact h.2.2 k (mem_map_of_mem hmem) k (by simp) rfl

theorem Fresh.placed {t' : Table} (h : Fresh t ((k, v) :: es))
    (hp : (entries t'.cells).Perm ((k, v) :: entries t.cells)) : Fresh t' es := by
  refine (((hp.append_right es).trans ?_).map Prod.fst).nodup_iff.2 h
  exact (@perm_middle _ (k, v) (entries t.cells) es).symm

def wordEntries (log : Bytes) (ws : List UInt64) : List (Key × UInt32) :=
  entries (ws.map (cellOf log))

theorem wordEntries_dead (hw : w &&& liveBit = 0) (ws : List UInt64) :
    wordEntries log (w :: ws) = wordEntries log ws := by
  unfold wordEntries
  rw [map_cons, entries_cons]
  by_cases h0 : w = 0 <;> simp [cellOf, Cell.entry, h0, hw]

theorem wordEntries_live (h : Stored hash log w k) (hw : w &&& liveBit ≠ 0)
    (ws : List UInt64) : wordEntries log (w :: ws) = (k, slotValue w) :: wordEntries log ws := by
  unfold wordEntries
  rw [map_cons, entries_cons, cellOf_of_stored h hw]
  rfl

/-- What one step of a rebuild does with an old word: a live one is placed, and `J` goes on to hold
of the table and the pairs still to come. -/
structure Refills (hash : Key → UInt64) (old : Bytes) (step : Table → UInt64 → Except Panic Table)
    (J : Table → List (Key × UInt32) → Prop) : Prop where
  dead : ∀ t w, w &&& liveBit = 0 → step t w = .ok t
  live : ∀ (t : Table) w k es, t.Core hash → t.slots ≠ [] → Stored hash old w k →
    w &&& liveBit ≠ 0 → (∀ (i : Nat) v', t.cells[i]? ≠ some (Cell.live k v')) →
    t.count < t.slots.length → J t ((k, slotValue w) :: es) →
    ∃ t', step t w = .ok t' ∧ t'.Core hash ∧
      (entries t'.cells).Perm ((k, slotValue w) :: entries t.cells) ∧
      t'.slots.length = t.slots.length ∧ t'.deadBytes = t.deadBytes ∧ J t' es

variable {step : Table → UInt64 → Except Panic Table} {J : Table → List (Key × UInt32) → Prop}
  {i : Nat}

/-- One old word is re-placed at a time; the invariant is that the pairs placed so far and
the pairs still to come are those of the table. -/
theorem Refills.all {old : Bytes} (hstep : Refills hash old step J) (ws : List UInt64) :
    ∀ t : Table, t.Core hash → t.slots ≠ [] → Sound hash old ws → Fresh t (wordEntries old ws) →
      t.count + (wordEntries old ws).length ≤ t.slots.length → J t (wordEntries old ws) →
      ∃ t', ws.foldlM step t = .ok t' ∧ t'.Core hash ∧
        (entries t'.cells).Perm (entries t.cells ++ wordEntries old ws) ∧
        t'.slots.length = t.slots.length ∧ t'.deadBytes = t.deadBytes ∧ J t' [] := by
  induction ws with
  | nil =>
    intro t h _ _ _ _ hJ
    exact ⟨t, rfl, h, by simp [wordEntries, entries], rfl, rfl, hJ⟩
  | cons w ws ih =>
    intro t h hne hsound hfresh hroom hJ
    have hsound' : Sound hash old ws := fun w' hw' => hsound w' (mem_cons_of_mem _ hw')
    by_cases hw : w &&& liveBit = 0
    · rw [wordEntries_dead hw] at hfresh hroom hJ ⊢
      obtain ⟨t', hfold, hrest⟩ := ih t h hne hsound' hfresh hroom hJ
      refine ⟨t', ?_, hrest⟩
      rw [foldlM_cons, hstep.dead t w hw]
      exact hfold
    · obtain ⟨k, hk⟩ := hsound w mem_cons_self hw
      rw [wordEntries_live hk hw] at hfresh hroom hJ ⊢
      obtain ⟨t₁, hplace, hcore, hperm₁, hsize₁, hdead₁, hJ₁⟩ := hstep.live t w k _ h hne hk hw
        hfresh.absent (by simp at hroom; omega) hJ
      have hcount : t₁.count = t.count + 1 := by
        rw [hcore.count_eq, hperm₁.length_eq, h.count_eq, length_cons]
      have hne₁ : t₁.slots ≠ [] := ne_nil_of_length_pos (hsize₁ ▸ length_pos_iff.2 hne)
      obtain ⟨t', hfold, hcore', hperm, hsize, hdead, hJ'⟩ := ih t₁ hcore hne₁ hsound'
        (hfresh.placed hperm₁) (by rw [hcount, hsize₁]; simp at hroom; omega) hJ₁
      refine ⟨t', ?_, hcore', ?_, hsize.trans hsize₁, hdead.trans hdead₁, hJ'⟩
      · rw [foldlM_cons, hplace]
        exact hfold
      · exact hperm.trans ((hperm₁.append_right _).trans
          (@perm_middle _ _ (entries t.cells) _).symm)

theorem refills_replaceSlot (old : Bytes) :
    Refills hash old (replaceSlot hash) fun t _ => t.log = old where
  dead t w hw := if_pos hw
  live t w k es h hne hk hw habsent hroom hlog := by
    subst hlog
    have hhash : recordHash hash t.log (slotOffset w) = hash k := by
      rw [recordHash, keyAt_of_recordAt hk.record_at]
    obtain ⟨t₁, hplace, hcore, hp⟩ :=
      place_spec h hne hk.record_at (fits_of_word w (hash k)) habsent hroom
    refine ⟨t₁, ?_, hcore, hp.perm, hp.size, hp.deadBytes, hp.log⟩
    rw [replaceSlot, if_neg hw, hhash, hplace]

theorem recordAt_append (h64 : k.length < 2 ^ 64)
    (hroom : log.length + (record k).length ≤ maxLogBytes) :
    RecordAt (log ++ record k) (UInt32.ofNat log.length).toNat k ∧
      (UInt32.ofNat log.length).toNat < 2 ^ 30 := by
  have hmax : maxLogBytes = 2 ^ 30 := rfl
  have h2 := two_le_length_record k
  have hoff : (UInt32.ofNat log.length).toNat = log.length := by
    rw [UInt32.toNat_ofNat']
    omega
  rw [hoff]
  refine ⟨⟨h64, [], ?_⟩, by omega⟩
  rw [drop_left, append_nil]

/-- The rebuild that copies the live records to a fresh log, with room for all of them. -/
theorem refills_repackSlot (old : Bytes) {total : Nat} (htotal : total ≤ maxLogBytes) :
    Refills hash old (repackSlot hash old) fun t es => t.log.length + liveBytes es = total where
  dead t w hw := if_pos hw
  live t w k es h hne hk hw habsent hroom hlog := by
    have hbytes : liveBytes ((k, slotValue w) :: es) = (record k).length + liveBytes es := by
      simp [liveBytes]
    rw [hbytes] at hlog
    -- the copied bytes are the whole record and nothing else
    have hcopy : (old.drop (slotOffset w).toNat).take (recordLen old (slotOffset w).toNat) =
        record k := by
      rw [recordLen_of_recordAt hk.record_at]
      obtain ⟨_, rest, hdrop⟩ := hk.record_at
      rw [hdrop, take_left]
    obtain ⟨hcore₀, hcells₀⟩ := h.append (record k)
    obtain ⟨hrec, hoff⟩ := @recordAt_append k t.log hk.record_at.1 (by omega)
    have hhash : recordHash hash (t.log ++ record k) (UInt32.ofNat t.log.length) = hash k := by
      rw [recordHash, keyAt_of_recordAt hrec]
    have hfits : Fits (hashFingerprint (hash k)) (slotValue w) (UInt32.ofNat t.log.length) :=
      { fits_of_word w (hash k) with offset_lt := hoff }
    obtain ⟨t₁, hplace, hcore, hp⟩ := place_spec hcore₀ hne hrec hfits
      (by rw [hcells₀]; exact habsent) hroom
    have hperm := hp.perm
    rw [hcells₀] at hperm
    refine ⟨t₁, ?_, hcore, hperm, hp.size, hp.deadBytes, ?_⟩
    · rw [repackSlot, if_neg hw]
      simp only [hcopy, hhash, hplace]
    · rw [hp.log, length_append]
      omega

/-! ## Whole rebuilds -/

theorem entries_replicate_empty (n : Nat) :
    entries (replicate n (.empty : Cell Key UInt32)) = [] := by
  induction n with
  | zero => rfl
  | succ n ih => rw [replicate_succ, entries_cons, ih]; rfl

theorem core_empty (t : Table) (hslots : t.slots = replicate capacity 0)
    (hcount : t.count = 0) : t.Core hash ∧ entries t.cells = [] := by
  have hcells : t.cells = replicate capacity .empty := by
    simp [Table.cells, hslots, cellOf]
  have hentries : entries t.cells = [] := by rw [hcells, entries_replicate_empty]
  refine ⟨⟨?_, ?_, ?_, ?_⟩, hentries⟩
  · intro w hw hlive
    rw [hslots] at hw
    exact absurd (eq_of_mem_replicate hw) (ne_zero_of_live hlive)
  · intro hne
    have hcap : 0 < capacity := by simpa [hslots] using length_pos_iff.2 hne
    rw [hcells]
    exact WellProbed.replicate_empty (fun k => by
      simpa [hslots] using probeStart_lt (hash k) hcap)
  · rw [hentries, hcount, length_nil]
  · intro _ k v hkv
    rw [hentries] at hkv
    cases hkv

/-- What a rebuild promises. -/
structure Rebuilt (hash : Key → UInt64) (t t' : Table) (capacity : Nat) : Prop where
  wf : t'.WF hash
  perm : (entries t'.cells).Perm (entries t.cells)
  size : t'.slots.length = capacity
  log_le : t'.log.length ≤ t.log.length

theorem Table.WF.keys_nodup (h : t.WF hash) : ((entries t.cells).map Prod.fst).Nodup := by
  by_cases hne : t.slots = []
  · simp [Table.cells, hne, entries]
  · exact (h.probed hne).keys_nodup

theorem liveBytes_perm {es' : List (Key × UInt32)} (h : es.Perm es') :
    liveBytes es = liveBytes es' :=
  (h.map _).sum_eq

theorem Refills.rebuilt (hstep : Refills hash t.log step J) (h : t.WF hash)
    (h4 : 4 ≤ capacity) (hcap : t.count ≤ capacity) (t₀ : Table)
    (hslots : t₀.slots = replicate capacity 0) (hcount : t₀.count = 0)
    (hJ : J t₀ (entries t.cells)) (hend : ∀ t', J t' [] →
      t'.log.length ≤ t.log.length ∧ t₀.deadBytes + liveBytes (entries t.cells) = t'.log.length) :
    ∃ t', t.slots.foldlM step t₀ = .ok t' ∧ Rebuilt hash t t' capacity := by
  obtain ⟨hcore, hnil⟩ : t₀.Core hash ∧ entries t₀.cells = [] := core_empty t₀ hslots hcount
  have hsize₀ : t₀.slots.length = capacity := by rw [hslots, length_replicate]
  have hentries : (entries t.cells).length = t.count := h.count_eq.symm
  obtain ⟨t', hfold, hcore', hperm, hsize, hdead, hJ'⟩ := hstep.all t.slots t₀ hcore
    (ne_nil_of_length_pos (by omega)) h.sound
    (by rw [Fresh, hnil]; exact h.keys_nodup)
    (by
      show t₀.count + (entries t.cells).length ≤ t₀.slots.length
      omega) hJ
  have hperm' : (entries t'.cells).Perm (entries t.cells) := by
    rw [hnil] at hperm
    exact hperm
  obtain ⟨hle, hlen⟩ := hend t' hJ'
  refine ⟨t', hfold, ⟨hcore', ?_, ?_, hle.trans h.room⟩, hperm', hsize.trans hsize₀, hle⟩
  · rw [hsize, hsize₀]
    exact Or.inr h4
  · rw [hdead, liveBytes_perm hperm']
    exact hlen

theorem rebuildSlots_spec (h : t.WF hash) (h4 : 4 ≤ capacity) (hcap : t.count ≤ capacity) :
    ∃ t', rebuildSlots hash t capacity = .ok t' ∧ Rebuilt hash t t' capacity := by
  refine (refills_replaceSlot t.log).rebuilt h h4 hcap (cleared t capacity) rfl rfl rfl ?_
  rintro t' hlog
  rw [hlog]
  exact ⟨le_rfl, h.bytes⟩

/-- Any sound table whose live records fit is repacked, whatever its own accounting. -/
theorem rebuildPacked_spec (h : t.WF hash) (h4 : 4 ≤ capacity) (hcap : t.count ≤ capacity) :
    ∃ t', rebuildPacked hash t capacity = .ok t' ∧ Rebuilt hash t t' capacity := by
  have hbytes := h.bytes
  have hroom := h.room
  refine (refills_repackSlot t.log (by omega)).rebuilt h h4 hcap _ rfl rfl (zero_add _) ?_
  intro t' hlen
  simp only [liveBytes, map_nil, sum_nil] at hlen hbytes ⊢
  omega

theorem rebuild_spec (h : t.WF hash) (h4 : 4 ≤ capacity) (hcap : t.count ≤ capacity) :
    ∃ t', rebuild hash t capacity = .ok t' ∧ Rebuilt hash t t' capacity := by
  unfold rebuild
  split
  · exact rebuildPacked_spec h h4 hcap
  · exact rebuildSlots_spec h h4 hcap

theorem growForInsert_spec (h : t.WF hash) : ∃ t', growForInsert hash t = .ok t' ∧ t'.WF hash ∧
      (entries t'.cells).Perm (entries t.cells) ∧ t'.count < t'.slots.length ∧
      t'.log.length ≤ t.log.length := by
  obtain ⟨hle, h4⟩ := capacityFor_spec h.size (n := t.count + 1) (by omega)
  unfold growForInsert
  by_cases heq : capacityFor t.slots.length (t.count + 1) = t.slots.length
  · exact ⟨t, by simp [heq], h, Perm.refl _, by omega, le_rfl⟩
  · obtain ⟨t', hok, hr⟩ := rebuild_spec h h4 (Nat.le_of_succ_le hle)
    refine ⟨t', by simp [heq, hok], hr.wf, hr.perm, ?_, hr.log_le⟩
    have hcount : t'.count = t.count := by
      rw [hr.wf.count_eq, hr.perm.length_eq, h.count_eq]
    rw [hcount, hr.size]
    omega

/-! ## Insertion -/

theorem length_lt_of_room {n : Nat} (h : n + keyRecordSize k ≤ maxLogBytes) :
    k.length < 2 ^ 64 := by
  have hmax : maxLogBytes = 2 ^ 30 := rfl
  have hle := length_le_of_record k
  rw [length_record] at hle
  omega

/-- What an insertion of an absent key promises. -/
structure Inserted (hash : Key → UInt64) (t t' : Table) (k : Key) (v : UInt32) : Prop where
  wf : t'.WF hash
  cell : ∃ i, Vacant t.cells i ∧ t'.cells = t.cells.set i (.live k v)

theorem insertKnownAbsent_spec (h : t.WF hash) (hv : v ≤ maxValue)
    (habsent : ∀ (i : Nat) (v' : UInt32), t.cells[i]? ≠ some (Cell.live k v'))
    (hroom : t.count < t.slots.length) (hlog : t.log.length + keyRecordSize k ≤ maxLogBytes) :
    ∃ t', insertKnownAbsentHashed t k v (hash k) = .ok t' ∧ Inserted hash t t' k v := by
  have hne : t.slots ≠ [] := ne_nil_of_length_pos (by omega)
  obtain ⟨hcore₀, hcells₀⟩ := h.toCore.append (record k)
  obtain ⟨hrec, hoff⟩ := @recordAt_append k t.log (length_lt_of_room hlog)
    (by rw [length_record]; exact hlog)
  obtain ⟨t', hplace, hcore, hp⟩ := place_spec hcore₀ hne hrec (fits_of_le (hash k) hv hoff)
    (by rw [hcells₀]; exact habsent) hroom
  have hperm : (entries t'.cells).Perm ((k, v) :: entries t.cells) := by
    have := hp.perm
    rwa [hcells₀] at this
  have hlen : t'.log.length = t.log.length + keyRecordSize k := by
    rw [hp.log, length_append, length_record]
  have hbytes := h.bytes
  refine ⟨t', ?_, ⟨hcore, ?_, ?_, ?_⟩, ?_⟩
  · rw [insertKnownAbsentHashed, if_neg (UInt32.not_lt.2 hv), appendKey, if_neg (by omega)]
    exact hplace
  · rw [hp.size]
    exact h.size
  · have hdead : t'.deadBytes = t.deadBytes := hp.deadBytes
    rw [liveBytes_perm hperm, hdead, hlen, ← length_record]
    simp only [liveBytes, map_cons, sum_cons] at hbytes ⊢
    omega
  · omega
  · obtain ⟨i, hi, hcells⟩ := hp.cell
    rw [hcells₀] at hi hcells
    exact ⟨i, hi, hcells⟩

theorem ownWord_stored {key : Key} (hk : Stored hash log w k) :
    ownWord log key (hashFingerprint (hash key)) w = decide (k = key) := by
  unfold ownWord
  rw [keyEquals_of_recordAt hk.record_at, hk.fingerprint]
  by_cases hkey : k = key
  · simp [hkey]
  · simp [hkey]

theorem insertHashed_absent (h : t.WF hash) (hv : v ≤ maxValue)
    (habsent : ∀ (i : Nat) (v' : UInt32), t.cells[i]? ≠ some (Cell.live k v'))
    (hroom : t.count < t.slots.length) (hlog : t.log.length + keyRecordSize k ≤ maxLogBytes) :
    ∃ t', insertHashed t k v (hash k) = .ok t' ∧ Inserted hash t t' k v := by
  obtain ⟨t', hok, hins⟩ := insertKnownAbsent_spec h hv habsent hroom hlog
  refine ⟨t', ?_, hins⟩
  rw [← hok]
  -- no live word is the key's own, so both loops stop at the same slot
  have hsame : insertSlot t.slots (ownWord t.log k (hashFingerprint (hash k))) (hash k) =
      insertSlot t.slots (fun _ => false) (hash k) := by
    have hpos : 0 < t.slots.length := by omega
    unfold insertSlot
    congr 1
    refine scan_congr ?_ _ _ _ (probeStart_lt _ hpos).le hpos
    intro s i hi
    unfold insertBody
    by_cases hlive : t.slots.getD i 0 &&& liveBit = 0
    · simp only [hlive, ne_eq, not_true_eq_false, if_false]
    · obtain ⟨k', hk'⟩ := h.sound _ (t.getD_mem hi) hlive
      have hne : k' ≠ k := by
        rintro rfl
        refine habsent i (slotValue (t.slots.getD i 0)) ?_
        rw [t.getElem?_cells hi, cellOf_of_stored hk' hlive]
      simp only [ownWord_stored hk', hne, decide_false]
  simp only [insertKnownAbsentHashed, insertHashed, addFilter_slots, addFilter_log, hsame,
    if_neg (UInt32.not_lt.2 hv)] at hok ⊢
  cases happend : appendKey t.log k with
  | error e =>
    rw [happend] at hok
    cases hok
  | ok res =>
    simp only [happend, placeKnownAbsent, addFilter_slots] at hok ⊢
    cases hslot : insertSlot t.slots (fun _ => false) (hash k) with
    | none => simp [hslot] at hok
    | some spot =>
      cases spot with
      | found i =>
        have hne : t.slots ≠ [] := ne_nil_of_length_pos (by omega)
        have hspec := (seek_spec (h.probed hne) (fun _ => false) k).1
        rw [← insertSlot_eq h.sound hne (fun _ _ _ _ => rfl) (hash k), hslot] at hspec
        obtain ⟨_, _, hfalse, _⟩ := hspec
        cases hfalse
      | vacant i =>
        simp only [addFilter]
        split <;> rfl

theorem Table.WF.addFilter (h : t.WF hash) (hv : UInt64) : (addFilter t hv).WF hash where
  toCore := h.toCore.addFilter hv
  size := by simpa using h.size
  bytes := by simpa using h.bytes
  room := by simpa using h.room

theorem writeSlot_spec (h : t.WF hash)
    (hcell : t.cells[i]? = some (Cell.live k v₀)) (hstored : Stored hash t.log w k)
    (hlive : w &&& liveBit ≠ 0) : (writeSlot t i w).WF hash ∧
      (writeSlot t i w).cells = t.cells.set i (.live k (slotValue w)) := by
  have hcells : (writeSlot t i w).cells = t.cells.set i (.live k (slotValue w)) := by
    rw [← cellOf_of_stored hstored hlive]
    simp [Table.cells, writeSlot, map_set]
  have hupd := entries_update hcell (slotValue w)
  have hbytes := h.bytes
  refine ⟨⟨⟨?_, ?_, ?_, ?_⟩, ?_, ?_, h.room⟩, hcells⟩
  · exact h.sound.set (fun _ => ⟨k, hstored⟩) i
  · intro _
    rw [hcells]
    simpa [writeSlot] using (h.probed (t.slots_ne_nil hcell)).update hcell (slotValue w)
  · have hlen := hupd.length_eq
    simp only [length_cons, Nat.add_right_cancel_iff] at hlen
    rw [hcells, hlen]
    exact h.count_eq
  · intro h4 k' v' hmem
    have hfilter := h.filter (by simpa [writeSlot] using h4)
    rw [hcells] at hmem
    rcases mem_cons.1 (hupd.mem_iff.1 (mem_cons_of_mem _ hmem)) with heq | hin
    · cases heq
      exact hfilter k v₀ (mem_entries.2 ⟨i, hcell⟩)
    · exact hfilter k' v' hin
  · simpa [writeSlot] using h.size
  · have hsum := liveBytes_perm hupd
    rw [hcells]
    simp only [liveBytes, map_cons, sum_cons, writeSlot] at hsum hbytes ⊢
    omega

theorem insertHashed_update (h : t.WF hash) (hv : v ≤ maxValue) {j : Nat}
    (hj : t.cells[j]? = some (Cell.live k v₀)) :
    ∃ t', insertHashed t k v (hash k) = .ok t' ∧ t'.WF hash ∧
      ∃ i v₁, t.cells[i]? = some (Cell.live k v₁) ∧ t'.cells = t.cells.set i (.live k v) := by
  have hne := Table.slots_ne_nil hj
  obtain ⟨hpost, habsent⟩ := seek_spec (h.probed hne) (fun k' => decide (k' = k)) k
  rw [← insertSlot_eq h.toCore.sound hne (fun _ _ _ hk => ownWord_stored hk)] at hpost habsent
  have hfound : ∃ i, insertSlot t.slots (ownWord t.log k (hashFingerprint (hash k))) (hash k) =
      some (.found i) := by
    by_contra hnone
    exact habsent (by simp) (fun i hi => hnone ⟨i, hi⟩) j v₀ hj
  obtain ⟨i, hi⟩ := hfound
  rw [hi] at hpost
  obtain ⟨k', v₁, hk', hcell⟩ := hpost
  have hkk : k' = k := of_decide_eq_true hk'
  subst hkk
  have hstored := (word_of_cell h.sound hcell).1
  have hfits : Fits (hashFingerprint (hash k')) v (slotOffset (t.slots.getD i 0)) :=
    fits_of_le (hash k') hv (fits_of_word (t.slots.getD i 0) (hash k')).offset_lt
  have hcell' : (addFilter t (hash k')).cells[i]? = some (Cell.live k' v₁) := by
    rwa [addFilter_cells]
  obtain ⟨hwf, hcells⟩ := writeSlot_spec (h.addFilter (hash k')) hcell'
    (by rw [addFilter_log]; exact stored_slotWord hfits hstored.record_at) (slotWord_live hfits)
  rw [slotValue_slotWord hfits, addFilter_cells] at hcells
  refine ⟨_, ?_, hwf, i, v₁, hcell, hcells⟩
  rw [insertHashed, if_neg (UInt32.not_lt.2 hv)]
  simp [hi]

/-! ## Deletion and reservation -/

theorem tombstone_spec (h : t.WF hash) (hcell : t.cells[i]? = some (Cell.live k v)) :
    let t' : Table := { t with
      deadBytes := t.deadBytes + recordLen t.log (slotOffset (t.slots.getD i 0)).toNat
      slots := t.slots.set i slotTombstone
      count := t.count - 1 }
    t'.WF hash ∧ t'.cells = t.cells.set i .deleted ∧ t.count = t'.count + 1 := by
  intro t'
  have hstored := (word_of_cell h.sound hcell).1
  have hcells : t'.cells = t.cells.set i .deleted := by
    have hdead : cellOf t.log slotTombstone = .deleted := rfl
    rw [← hdead]
    simp [t', Table.cells, map_set]
  have hperm := entries_erase hcell
  have hlen := hperm.length_eq
  have hcount := h.count_eq
  have hbytes := h.bytes
  simp only [length_cons] at hlen
  refine ⟨⟨⟨?_, ?_, ?_, ?_⟩, ?_, ?_, h.room⟩, hcells, ?_⟩
  · exact h.sound.set (fun hlive => absurd rfl hlive) i
  · intro _
    rw [hcells]
    simpa [t'] using (h.probed (t.slots_ne_nil hcell)).erase i
  · rw [hcells]
    show t.count - 1 = _
    omega
  · intro h4 k' v' hmem
    rw [hcells] at hmem
    exact h.filter (by simpa [t'] using h4) k' v' (hperm.mem_iff.1 (mem_cons_of_mem _ hmem))
  · simpa [t'] using h.size
  · have hsum := liveBytes_perm hperm
    rw [hcells]
    show t.deadBytes + recordLen t.log _ + _ = t.log.length
    rw [recordLen_of_recordAt hstored.record_at]
    simp only [liveBytes, map_cons, sum_cons] at hsum hbytes ⊢
    omega
  · show t.count = t.count - 1 + 1
    omega

theorem dropLog_spec (h : t.WF hash) (h0 : entries t.cells = []) :
    ({ t with tinyFilter := 0, log := [], deadBytes := 0 } : Table).WF hash ∧
      ({ t with tinyFilter := 0, log := [], deadBytes := 0 } : Table).cells = t.cells := by
  have hdead : ∀ w ∈ t.slots, w &&& liveBit = 0 := by
    intro w hw
    by_contra hlive
    obtain ⟨k, hk⟩ := h.sound w hw hlive
    have hmem : (k, slotValue w) ∈ entries t.cells := by
      refine mem_filterMap.2 ⟨cellOf t.log w, mem_map_of_mem hw, ?_⟩
      rw [cellOf_of_stored hk hlive]
      rfl
    rw [h0] at hmem
    cases hmem
  have hcells : ({ t with tinyFilter := 0, log := [], deadBytes := 0 } : Table).cells =
      t.cells := by
    refine map_congr_left fun w hw => ?_
    simp [cellOf, hdead w hw]
  refine ⟨⟨⟨?_, ?_, ?_, ?_⟩, h.size, ?_, by simp⟩, hcells⟩
  · intro w hw hlive
    exact absurd (hdead w hw) hlive
  · intro hne
    rw [hcells]
    exact h.probed hne
  · rw [hcells]
    exact h.count_eq
  · intro _ k v hkv
    rw [hcells, h0] at hkv
    cases hkv
  · rw [hcells, h0]
    rfl

theorem deleteHashed_present (h : t.WF hash) (hslot : lookupSlot t k (hash k) = some i)
    (hcell : t.cells[i]? = some (Cell.live k v)) :
    ∃ t', deleteHashed hash t k (hash k) = .ok t' ∧ t'.WF hash ∧
      (entries t'.cells).Perm (entries (t.cells.set i .deleted)) := by
  obtain ⟨hwf, hcells, hcount⟩ := tombstone_spec h hcell
  unfold deleteHashed
  simp only [hslot]
  set t₁ : Table := { t with
    deadBytes := t.deadBytes + recordLen t.log (slotOffset (t.slots.getD i 0)).toNat
    slots := t.slots.set i slotTombstone
    count := t.count - 1 }
  by_cases h0 : t₁.count = 0
  · have hnil : entries t₁.cells = [] := length_eq_zero_iff.1 (by rw [← hwf.count_eq, h0])
    obtain ⟨hwf', hcells'⟩ := dropLog_spec hwf hnil
    refine ⟨_, by rw [if_pos h0], hwf', ?_⟩
    rw [hcells', hcells]
  · rw [if_neg h0]
    split
    · have hle : t₁.count ≤ t₁.slots.length := by
        rw [hwf.count_eq, ← t₁.length_cells]
        exact length_filterMap_le _ _
      obtain ⟨t', hok, hr⟩ := rebuildPacked_spec hwf (by rcases hwf.size with hs | hs <;> omega) hle
      exact ⟨t', hok, hr.wf, by rw [← hcells]; exact hr.perm⟩
    · exact ⟨t₁, rfl, hwf, by rw [hcells]⟩

theorem reserveKeys_spec (h : t.WF hash) (n : Int) :
    ∃ t', reserveKeys hash t n = .ok t' ∧ t'.WF hash ∧
      (entries t'.cells).Perm (entries t.cells) := by
  unfold reserveKeys
  set m := (max n (t.count : Int)).toNat
  have hle : t.count ≤ m := by omega
  by_cases h0 : m = 0
  · have hnil : entries t.cells = [] := length_eq_zero_iff.1 (by rw [← h.count_eq]; omega)
    refine ⟨_, by rw [if_pos h0], ⟨?_, Or.inl rfl, rfl, by simp⟩, ?_⟩
    · refine (@core_empty hash 0 _ rfl ?_).1
      show t.count = 0
      omega
    · rw [hnil]
      exact Perm.refl _
  · obtain ⟨hn, h4, _⟩ := tightCapacity_spec m
    rw [if_neg h0]
    split
    · obtain ⟨t', hok, hr⟩ := rebuildPacked_spec h h4 (hle.trans hn)
      exact ⟨t', hok, hr.wf, hr.perm⟩
    · exact ⟨t, rfl, h, Perm.refl _⟩

end Index
end SnugKV
