import SnugKV.Stream.DeltaProofs

/-!
# Replay — the records of a command do what the command did

`applyStreamDelta` reads back what `Records` wrote, and from a copy of the stream before the command
leads to the stream after it, once or twice.

* `parseStreamEntryBlock_entriesBytes`, `parseIDs_idBytes` — the blocks of a delta read back;
* `applyToLog_spec` — the log behind the replay;
* `Replayable` — the changes the replay gets right at a given time, `records_replay_iff` — exactly
  those.
-/

namespace SnugKV
namespace Stream

open Lib List Action Cell
open Persistence (ConsumerState PendingState GroupDelta StreamDelta Record)

/-! ## Blocks of a delta -/

/-- An id and a number take seventeen bytes at least. -/
theorem length_entryBytes_ge (e : StreamEntry) : 17 ≤ (entryBytes e).length := by
  have := length_putUvarint_pos e.fields.length
  simp only [entryBytes, length_append, length_idBytes]
  omega

variable {es : List StreamEntry} {data key : Bytes} {b : Body}

theorem parseEntries_of_run {off : Nat} (h : Run data off es) (hasc : Ascending es)
    (hfields : ∀ e ∈ es, e.fields ≠ []) {previous : Option StreamID}
    (hprev : ∀ p, previous = some p → ∀ e ∈ es, p < e.id) :
    parseEntries data es.length off previous = some (es, off + (entriesBytes es).length) := by
  induction es generalizing off previous with
  | nil => rfl
  | cons e es ih =>
    obtain ⟨hid, -, -, hrest⟩ := h.head
    have he : HasAt data off (entryBytes e) := by
      have hbytes := h.bytes
      exact (hasAt_append.1 hbytes).1
    have hfits := h.fits e (mem_cons_self ..)
    obtain ⟨hcount, htail⟩ := hasAt_entry_tail he
    have hbound := htail.bound
    have hle := fields_le_entryBytes e
    have hpos : 0 < e.fields.length := length_pos_of_ne_nil (hfields e (mem_cons_self ..))
    have hprevious : (previous.any fun p => !p.less e.id) = false := by
      cases hp : previous with
      | none => rfl
      | some p => simpa using hprev p hp e (mem_cons_self ..)
    have hsize : off + 16 + (putUvarint e.fields.length).length +
        (e.fields.flatMap fieldBytes).length = off + (entryBytes e).length := by
      simp only [entryBytes, length_append, length_idBytes]
      omega
    rw [length_cons, parseEntries, hid]
    simp only [some_bind, hprevious, Bool.false_eq_true, if_false,
      chunkUvarint_of_hasAt (hfits.1.trans (by decide)) hcount]
    rw [if_neg (by omega), chunkFields_of_hasAt hfits.2 htail, some_bind, hsize,
      ih hrest (Pairwise.of_cons hasc) (fun x hx => hfields x (mem_cons_of_mem _ hx))
        (fun p hp x hx => by
          cases hp
          exact rel_of_pairwise_cons hasc hx)]
    simp [entriesBytes, add_assoc]

theorem parseStreamEntryBlock_entriesBytes (hasc : Ascending es)
    (hfits : ∀ e ∈ es, e.Fits ∧ e.fields ≠ []) (hfew : es.length ≤ 1) :
    parseStreamEntryBlock (entriesBytes es) (Int64.ofNat es.length) = some es := by
  rcases es with - | ⟨e, - | ⟨e', es⟩⟩
  · rfl
  · have hge := length_entryBytes_ge e
    have hrun : Run (entriesBytes [e]) 0 [e] := ⟨fun e he => (hfits e he).1, [], [], by simp, rfl⟩
    have hguard : ¬ (Int64.ofNat 1 < 0 ∨ (entriesBytes [e]).length / 17 < 1) := by
      rw [entriesBytes, flatMap_singleton]
      exact not_or.2 ⟨by decide, by omega⟩
    change (if _ then none else (parseEntries (entriesBytes [e]) [e].length 0 none).bind _) = _
    rw [if_neg fun h => hguard h.1,
      parseEntries_of_run hrun hasc (fun e he => (hfits e he).2) (by simp)]
    simp
  · simp at hfew

theorem parseIDs_of_hasAt {off : Nat} {ids : List StreamID}
    (h : HasAt data off (ids.flatMap idBytes)) : parseIDs data ids.length off = ids := by
  induction ids generalizing off with
  | nil => rfl
  | cons id ids ih =>
    obtain ⟨hid, hrest⟩ := hasAt_append.1 h
    rw [length_idBytes] at hrest
    rw [length_cons, parseIDs, streamIDAt_of_hasAt hid]
    simp only [ih hrest]

theorem length_flatMap_idBytes (ids : List StreamID) :
    (ids.flatMap idBytes).length = 16 * ids.length := by
  induction ids with
  | nil => rfl
  | cons id ids ih =>
    rw [flatMap_cons, length_append, length_idBytes, ih, length_cons]
    omega

theorem parseIDs_idBytes (ids : List StreamID) :
    parseIDs (ids.flatMap idBytes) ((ids.flatMap idBytes).length / 16) 0 = ids := by
  rw [length_flatMap_idBytes, Nat.mul_div_cancel_left _ (by decide)]
  exact parseIDs_of_hasAt ⟨[], [], by simp, rfl⟩

/-- The live bytes of the chunks are the bytes of the entries. -/
theorem packedEntries_of_is (h : b.Is es) : b.packedEntries = entriesBytes es := by
  obtain ⟨cs, hcs, rfl⟩ := h
  rw [Body.packedEntries, hcs.chunks, entriesBytes, flatMap_assoc, flatMap_map]
  refine flatMap_congr fun p hp => ?_
  obtain ⟨dead, hdata, hhead⟩ := (hcs.holds p hp).bytes
  rw [hdata, ← hhead, drop_left]
  rfl

theorem Body.Is.fits (h : b.Is es) : ∀ e ∈ es, e.Fits := by
  obtain ⟨cs, hcs, rfl⟩ := h
  intro e he
  obtain ⟨p, hp, he⟩ := mem_flatMap.1 he
  exact (hcs.holds p hp).fits e he

theorem lastEntryID_of_is (h : b.Is es) : ∀ id, b.lastEntryID = some id → ∃ e ∈ es, e.id = id := by
  obtain ⟨cs, hcs, rfl⟩ := h
  intro id hid
  unfold Body.lastEntryID at hid
  split_ifs at hid
  rw [hcs.chunks, getLast?_map, Option.map_map, Option.map_eq_some_iff] at hid
  obtain ⟨p, hp, rfl⟩ := hid
  have hmem : p ∈ cs := mem_of_getLast? hp
  have hhold := hcs.holds p hmem
  obtain ⟨e, he⟩ := Option.ne_none_iff_exists'.1 fun hnone =>
    hhold.nonempty (getLast?_eq_none_iff.1 hnone)
  exact ⟨e, mem_flatMap.2 ⟨p, hmem, mem_of_getLast? he⟩, (hhold.last e he).symm⟩

/-! ## The log -/

theorem foldlM_append_spec (env : Env) {xs : List StreamEntry} (h : b.Is xs)
    (hj : b.j = none) (hfits : ∀ e ∈ es, e.Fits) (hasc : Ascending (xs ++ es)) :
    ∃ b', es.foldlM (fun (b : Body) e => b.append env e) b = some b' ∧ b'.Is (xs ++ es) ∧
      b'.SameCounters b ∧ b'.j = none := by
  induction es generalizing b xs with
  | nil => exact ⟨b, rfl, by simpa using h, ⟨rfl, rfl, rfl⟩, hj⟩
  | cons e es ih =>
    obtain ⟨b₁, happ, his⟩ := append_is env h (hfits e (mem_cons_self ..)) fun x hx =>
      (pairwise_append.1 hasc).2.2 x hx e (mem_cons_self ..)
    obtain ⟨hcounters, hnote⟩ := append_noted happ
    have hj₁ : b₁.j = none := by
      rw [hnote, Body.noteAppend, hj]
      rfl
    obtain ⟨b', hrest, his', hcounters', hj'⟩ := ih his hj₁
      (fun x hx => hfits x (mem_cons_of_mem _ hx)) (by simpa using hasc)
    refine ⟨b', ?_, by simpa using his', hcounters'.trans hcounters, hj'⟩
    simp only [foldlM_cons, happ, some_bind]
    exact hrest

theorem appendAbove_eq (env : Env) (floor : StreamID) (es : List StreamEntry) (b : Body) :
    appendAbove env floor es b =
      (es.filter fun e => decide (floor < e.id)).foldlM (fun (b : Body) e => b.append env e) b := by
  induction es generalizing b with
  | nil => rfl
  | cons e es ih =>
    rw [appendAbove, StreamID.less_eq_decide]
    by_cases hfloor : floor < e.id <;> simp [hfloor, ih]

/-- As many entries as stand up to `id`, dropped from the front, leave those behind it. -/
theorem drop_countThrough (hasc : Ascending es) (id : StreamID) :
    es.drop (es.filter fun e => decide (e.id ≤ id)).length =
      es.filter fun e => decide (id < e.id) := by
  induction es with
  | nil => rfl
  | cons e es ih =>
    have htail := Pairwise.of_cons hasc
    by_cases hle : e.id ≤ id
    · simp [hle, not_lt.2 hle, ih htail]
    · -- from here on every entry stays
      have hall : ∀ x ∈ es, id < x.id := fun x hx =>
        lt_trans (not_le.1 hle) (rel_of_pairwise_cons hasc hx)
      have hnone : es.filter (fun x => decide (x.id ≤ id)) = [] :=
        filter_eq_nil_iff.2 fun x hx => by simpa using hall x hx
      have hself : es.filter (fun x => decide (id < x.id)) = es :=
        filter_eq_self.2 fun x hx => by simpa using hall x hx
      simp [hle, not_le.1 hle, hnone, hself]

section Log

variable {log b : Body} {xs : List StreamEntry} {j : Journal} {l₀ l lt : Log}
  {added : List StreamEntry} {env : Env}

/-- The delta tells the changes `j` notes of a log that shows `l` now. -/
structure Tells (d : StreamDelta) (j : Journal) (l : Log) : Prop where
  lastID : pairID d.lastID = l.lastID
  maxDeletedID : pairID d.maxDeletedID = l.maxDeletedID
  entriesAdded : d.entriesAdded.toNat = l.entriesAdded
  removeThrough : ∀ id, j.through = some id → pairID d.removeThrough = id
  hasRemoveThrough : d.hasRemoveThrough = j.through.isSome
  delete : d.delete = j.deleted.flatMap idBytes

/-- The log behind the replay, from a copy of the log before and of the log after. -/
def replayed (lt l : Log) : Log := { l with entriesAdded := max lt.entriesAdded l.entriesAdded }

theorem removeThrough_spec (h : b.Is xs) (hj : b.j = none) {d : StreamDelta}
    (htells : Tells d j l) :
    ∃ b', removeThrough d b = some b' ∧
      b'.Is (xs.filter fun e => j.through.all fun through => decide (through < e.id)) ∧
      b'.SameCounters b ∧ b'.j = none := by
  rw [removeThrough, htells.hasRemoveThrough]
  cases hthrough : j.through with
  | none => exact ⟨b, rfl, by simpa using h, ⟨rfl, rfl, rfl⟩, hj⟩
  | some id =>
    have hdrop := drop_countThrough h.agrees.sorted id
    simp only [Option.isSome_some, if_true, htells.removeThrough id hthrough,
      countThrough_of_is h, some_bind, Option.all_some]
    generalize (xs.filter fun e => decide (e.id ≤ id)).length = n at hdrop ⊢
    by_cases hn : 0 < n
    · obtain ⟨b', htrim, his, hcounters, hnote⟩ := trimFront_spec h (n : Int)
      refine ⟨b', by rw [if_pos hn, htrim]; rfl, ?_, hcounters, ?_⟩
      · rwa [Int.toNat_natCast, hdrop] at his
      · rw [hnote]
        split_ifs
        · simp [Body.noteThrough, Body.beforeDestructive, hj]
        · exact hj
    · refine ⟨b, by rw [if_neg hn], ?_, ⟨rfl, rfl, rfl⟩, hj⟩
      rw [show n = 0 by omega, drop_zero] at hdrop
      exact hdrop ▸ h

theorem removeListed_spec (h : b.Is xs) (hj : b.j = none) {d : StreamDelta} (htells : Tells d j l) :
    ∃ b', removeListed d b = some b' ∧
      b'.Is (xs.filter fun e => decide (e.id ∉ j.deleted)) ∧
      b'.SameCounters b ∧ b'.j = none := by
  rw [removeListed, htells.delete, parseIDs_idBytes]
  by_cases hnil : j.deleted = []
  · exact ⟨b, by simp [hnil], by simpa [hnil] using h, ⟨rfl, rfl, rfl⟩, hj⟩
  · have hne : j.deleted.flatMap idBytes ≠ [] := by
      intro hflat
      have := length_flatMap_idBytes j.deleted
      rw [hflat, length_nil] at this
      exact hnil (eq_nil_of_length_eq_zero (by omega))
    obtain ⟨b', hdel, his, gone, hnoted, -⟩ := delete_spec h j.deleted
    refine ⟨b', by rw [if_pos hne, hdel]; rfl, by simpa using his, ?_, ?_⟩
    · have := hnoted.counters
      split_ifs at this
      · exact this
      · exact ⟨this.lastID, this.maxDeletedID, this.entriesAdded⟩
    · rw [hnoted.j]
      split_ifs <;> simp [Body.noteDeleted, Body.beforeDestructive, hj]

theorem laterID_of_le {a b : StreamID} (h : a ≤ b) : laterID a b = b := by
  unfold laterID
  split_ifs with hlt
  · rfl
  · exact le_antisymm h (not_lt.1 (by simpa using hlt))

theorem applyToLog_spec (htracks : Tracks log j l₀ l added) (hshows : b.Shows lt)
    (hj : b.j = none) (hlt : lt = l₀ ∨ lt = l) {d : StreamDelta} (htells : Tells d j l) :
    ∃ b', applyToLog env d added b = some b' ∧ b'.j = none ∧ b'.Shows (replayed lt l) := by
  -- the entries the first step leaves
  obtain ⟨xs, hxs, hasc, hfilter⟩ : ∃ xs,
      lt.entries ++ added.filter (fun e => decide (lt.lastID < e.id)) = xs ∧ Ascending xs ∧
        xs.filter (fun e => j.keeps e.id) = l.entries := by
    refine ⟨_, rfl, ?_⟩
    rcases hlt with rfl | rfl
    · have hall : added.filter (fun e => decide (lt.lastID < e.id)) = added :=
        filter_eq_self.2 fun e he => by simpa using (htracks.fresh e he).1
      rw [hall, htracks.entries]
      exact ⟨htracks.ascending, rfl⟩
    · -- nothing to append, and nothing left to remove
      have hnone : added.filter (fun e => decide (lt.lastID < e.id)) = [] :=
        filter_eq_nil_iff.2 fun e he => by simpa using (htracks.fresh e he).2.1
      rw [hnone, append_nil]
      refine ⟨hshows.is.agrees.sorted, filter_eq_self.2 fun e he => ?_⟩
      rw [htracks.entries] at he
      exact (mem_filter.1 he).2
  obtain ⟨b₁, happend, his₁, hcounters₁, hj₁⟩ := foldlM_append_spec env hshows.is hj
    (fun e he => (htracks.fresh e (mem_of_mem_filter he)).2.2.1) (hxs ▸ hasc)
  rw [hxs] at his₁
  obtain ⟨b₂, htrim, his₂, hcounters₂, hj₂⟩ := removeThrough_spec his₁ hj₁ htells
  obtain ⟨b₃, hdelete, his₃, hcounters₃, hj₃⟩ := removeListed_spec his₂ hj₂ htells
  have hentries : (xs.filter fun e => j.through.all fun through => decide (through < e.id)).filter
      (fun e => decide (e.id ∉ j.deleted)) = l.entries := by
    rw [← hfilter, filter_filter]
    exact filter_congr fun e _ => by rw [Journal.keeps, Bool.and_comm]
  have hcounters := hcounters₃.trans (hcounters₂.trans hcounters₁)
  have hlastID : b₃.lastID = lt.lastID := hcounters.lastID.trans hshows.lastID
  have hmaxDeletedID : b₃.maxDeletedID = lt.maxDeletedID :=
    hcounters.maxDeletedID.trans hshows.maxDeletedID
  have hentriesAdded : b₃.entriesAdded = lt.entriesAdded :=
    hcounters.entriesAdded.trans hshows.entriesAdded
  have hle : lt.lastID ≤ l.lastID ∧ lt.maxDeletedID ≤ l.maxDeletedID := by
    rcases hlt with rfl | rfl
    · exact ⟨htracks.lastID, htracks.maxDeletedID⟩
    · exact ⟨le_refl _, le_refl _⟩
  refine ⟨b₃.syncLog (laterID b₃.lastID (pairID d.lastID))
    (laterID b₃.maxDeletedID (pairID d.maxDeletedID)) (max b₃.entriesAdded d.entriesAdded.toNat),
    ?_, hj₃, ?_⟩
  · rw [applyToLog, hshows.lastID, appendAbove_eq, happend]
    simp only [some_bind, htrim, hdelete]
  · rw [hentries] at his₃
    refine ⟨his₃.of_bare rfl rfl rfl, ?_, ?_, ?_⟩
    · change laterID b₃.lastID (pairID d.lastID) = l.lastID
      rw [hlastID, htells.lastID, laterID_of_le hle.1]
    · change laterID b₃.maxDeletedID (pairID d.maxDeletedID) = l.maxDeletedID
      rw [hmaxDeletedID, htells.maxDeletedID, laterID_of_le hle.2]
    · change max b₃.entriesAdded d.entriesAdded.toNat = max lt.entriesAdded l.entriesAdded
      rw [hentriesAdded, htells.entriesAdded]

end Log

/-! ## Stored values -/

theorem sortPending_idem (ps : List Pending) : sortPending (sortPending ps) = sortPending ps :=
  Pairwise.insertionSort_eq (pairwise_insertionSort _ _)

theorem encodeEntriesRead_normalize (value : Int64) :
    encodeEntriesRead (if value < 0 then -1 else value) = encodeEntriesRead value := by
  unfold encodeEntriesRead
  by_cases hneg : value < 0
  · rw [if_pos hneg, if_pos hneg, if_pos (by decide)]
  · rw [if_neg hneg, if_neg hneg]

@[simp] theorem Group.normalize_normalize (g : Group) : g.normalize.normalize = g.normalize := by
  unfold Group.normalize
  simp only [sortPending_idem, Group.mk.injEq, true_and, and_true]
  split_ifs <;> rfl

theorem groupsBytes_normalize (gs : List Group) :
    groupsBytes (gs.map Group.normalize) = groupsBytes gs := by
  have hgroup : ∀ g : Group, groupBytes g.normalize = groupBytes g := by
    intro g
    simp only [groupBytes, Group.normalize, sortPending_idem, encodeEntriesRead_normalize,
      length_sortPending]
  rw [groupsBytes, groupsBytes, length_map, flatMap_map]
  simp only [hgroup]

variable {gs groups : List Group} {call : Call} {stub : Bytes} {expiresAt : Int64}
  {p : PackedStream} {c : Cell} {l : Log} {added : List StreamEntry} {log : Body} {s : Store}
  {α : Type} {cmd : Command} {m : CellM α}

theorem GroupsValid.normalize (h : GroupsValid gs) : GroupsValid (gs.map Group.normalize) := by
  refine ⟨by rw [map_name_normalize]; exact h.names, fun g hg => ?_⟩
  obtain ⟨g, hmem, rfl⟩ := mem_map.1 hg
  have hvalid := h.groups g hmem
  refine ⟨hvalid.consumers, hvalid.times, ?_, ?_, ?_⟩
  · exact (sortPending_idem g.pending).symm ▸ hvalid.ascending
  · exact fun p hp => hvalid.delivered p (mem_sortPending.1 hp)
  · exact fun p hp => hvalid.owners p (mem_sortPending.1 hp)

/-- The groups that were stored can be stored again, with other ids, in the same room. -/
theorem encodeStreamStub_of_stored (h : Stored stub p)
    {lastID maxDeletedID : StreamID} (hle : maxDeletedID ≤ lastID) (log : Body) :
    ∃ stub' p', encodeStreamStub
        ⟨lastID, p.entriesAdded, maxDeletedID, p.normalize.groups, log⟩ = some stub' ∧
      Stored stub' p' ∧ p'.normalize.groups = p.normalize.groups ∧
      stub'.length = stub.length := by
  let p' : PackedStream := ⟨lastID, p.entriesAdded, maxDeletedID, [], p.normalize.groups⟩
  have hlength : (packedBytes p').length = stub.length := by
    rw [h.bytes]
    simp only [packedBytes, packedHead, length_append, length_idBytes, h.entries, p',
      PackedStream.normalize, groupsBytes_normalize]
  have hsize : (packedBytes p').length ≤ maxPackedStreamBytes := hlength ▸ h.size
  have hsound : p'.Sound := ⟨Nat.zero_le _, hle, by simp [p'], List.Pairwise.nil, by simp [p']⟩
  have hvalid : GroupsValid p'.groups := h.valid.normalize
  have hgroups : appendStreamGroups (packedHead p' ++ entriesBytes p'.entries) p'.groups =
      some (packedBytes p') :=
    appendStreamGroups_eq_some.2 ⟨hvalid, fun _ => hsize, rfl⟩
  refine ⟨packedBytes p', p', ?_, ⟨rfl, rfl, hsound, hvalid, h.added, hsize⟩, ?_, hlength⟩
  · change encodePackedStream p' = _
    rw [encodePackedStream, if_neg (not_or.2 ⟨by simp [p'], not_lt.2 hle⟩), if_neg (by simp [p']),
      if_neg (by simp [p']), if_neg (by simp [p']), if_neg (by simp [p']), hgroups]
    simp only [some_bind]
    rw [if_neg (not_lt.2 hsize)]
  · simp [PackedStream.normalize, p']

/-- The stored groups of the notes of a transaction read back. -/
theorem readStreamGroups_of_stored (h : Stored stub p) :
    readStreamGroups (groupsBytes p.groups) 0 3 =
      some (p.normalize.groups, (groupsBytes p.groups).length) := by
  have hsize : (groupsBytes p.groups).length ≤ maxPackedStreamBytes := by
    have := h.size
    rw [h.bytes, packedBytes, length_append] at this
    omega
  have hat : HasAt (groupsBytes p.groups) 0 (groupsBytes p.groups) := ⟨[], [], by simp, rfl⟩
  rw [readStreamGroups_of_hasAt h.valid hsize hat, zero_add]
  rfl

/-! ## New logs -/

theorem streamBodyFromEntries_spec (env : Env) (hsound : l.Sound)
    (hfits : ∀ e ∈ l.entries, e.Fits) (groups : List Group) :
    ∃ b, streamBodyFromEntries env
        ⟨l.lastID, l.entriesAdded, l.maxDeletedID, l.entries, groups⟩ = some b ∧
      b.j = none ∧ b.Shows l := by
  obtain ⟨b, hfold, his, -, hj⟩ := foldlM_append_spec { env with spill := none } Body.is_empty rfl
    hfits
    (by simpa using hsound.ascending)
  obtain ⟨his', hj'⟩ : (if b.chunks = [] then b else b.sealAt (b.chunks.length - 1)).Is l.entries ∧
      (if b.chunks = [] then b else b.sealAt (b.chunks.length - 1)).j = none := by
    split_ifs
    · exact ⟨his, hj⟩
    · exact ⟨sealAt_is his _, (sealAt_same b _).2.1.trans hj⟩
  refine ⟨(if b.chunks = [] then b else b.sealAt (b.chunks.length - 1)).syncLog l.lastID
    l.maxDeletedID l.entriesAdded, ?_, hj', his'.of_bare rfl rfl rfl, rfl, rfl, rfl⟩
  rw [streamBodyFromEntries]
  simp [hfold]

/-! ## One key -/

/-- The memory limit never refuses. -/
def Call.unlimited (call : Call) : Call :=
  { call with admitGrowth := fun _ _ => true, admitPublish := fun _ _ => true }

/-- The replay `again` has a spill directory if `call` had one. -/
def Spills (call again : Call) : Prop :=
  call.env.spill.isSome = true → again.env.spill.isSome = true

/-- What was small enough for the command is small enough for the replay. -/
theorem Spills.fits {call again : Call} (h : Spills call again) {bytes stub : Nat}
    (hfits : streamTooLarge call (bytes + stub) stub = false) :
    streamTooLarge again (bytes + stub) stub = false := by
  unfold streamTooLarge at hfits ⊢
  by_cases hcall : call.env.spill.isSome = true
  · rw [if_pos hcall] at hfits
    rwa [if_pos (h hcall)]
  · rw [if_neg hcall] at hfits
    simp only [gt_iff_lt, decide_eq_false_iff_not, not_lt] at hfits
    split_ifs
    · simpa using (Nat.le_add_left stub bytes).trans hfits
    · simpa using hfits

theorem Cell.Sound.stream (h : c.Sound) (hview : c.view = .stream l groups expiresAt) :
    ∃ stub log p, c.slot = some ⟨.stream stub log, expiresAt⟩ ∧ log.j = none ∧ log.Shows l ∧
      l.Sound ∧ Stored stub p ∧ p.normalize.groups = groups := by
  rcases hslot : c.slot with - | ⟨v, at'⟩
  · simp [view, hslot] at hview
  · cases v with
    | other data => simp [view, hslot] at hview
    | stream stub log =>
      obtain ⟨hj, l', p, hshows, hsound, hstored⟩ := h.parts stub log at' hslot
      rw [view_of_stream hslot hshows hstored] at hview
      cases hview
      exact ⟨stub, log, p, rfl, hj, hshows, hsound, hstored, rfl⟩

theorem diffStreamGroups_self (h : GroupsSettled gs) : diffStreamGroups gs gs = [] := by
  refine eq_nil_iff_forall_not_mem.2 fun op hop => ?_
  rcases mem_diffStreamGroups.1 hop with ⟨g, hg, -⟩ | ⟨g, hg, hnot, -⟩
  · obtain ⟨hmem, hnotable⟩ := mem_filter.1 hg
    rw [groupDelta, (lookupLast_eq_some h.names).2 ⟨hmem, rfl⟩,
      diffGroup_self (h.groups g hmem)] at hnotable
    exact Bool.false_ne_true hnotable
  · exact hnot (mem_map_of_mem hg)

section Key

variable {call again : Call} {s : Start} {c c₀ : Cell} {item : Item} {stub : Bytes} {log : Body}
  {j : Journal} {expiresAt : Int64} {l : Log} {p : PackedStream} {added : List StreamEntry}

/-- The delta of a stream that existed. -/
structure Describes (d : StreamDelta) (s : Start) (j : Journal) (l : Log) (groups : List Group)
    (added : List StreamEntry) : Prop where
  create : d.create = false
  append : d.append = entriesBytes added
  appendCount : d.appendCount = Int64.ofNat added.length
  tells : Tells d j l
  groupsSet : d.groupsSet = false
  groupOps : d.groupOps = diffStreamGroups s.groups groups

theorem changeDelta_describes (hbegan : Began c₀ (some s)) (htracks : Tracks log j s.log l added)
    (hsound : l.Sound) (hstored : Stored stub p)
    (hnoted : Noted GroupsEvolve call s item stub log l p) :
    Describes (changeDelta item log j) s j l p.normalize.groups added := by
  obtain ⟨-, log₀, p₀, -, -, hstored₀, hgroups₀⟩ := hbegan.stream s rfl
  have hadded : (UInt64.ofNat log.entriesAdded).toNat = l.entriesAdded := by
    rw [htracks.shows.entriesAdded]
    exact UInt64.toNat_ofNat_of_lt' hsound.added
  have htells : ∀ d : StreamDelta, d.lastID = idPair log.lastID →
      d.maxDeletedID = idPair log.maxDeletedID →
      d.entriesAdded = UInt64.ofNat log.entriesAdded →
      d.removeThrough = (j.through.map idPair).getD (0, 0) →
      d.hasRemoveThrough = j.through.isSome → d.delete = j.deleted.flatMap idBytes →
      Tells d j l := by
    intro d h₁ h₂ h₃ h₄ h₅ h₆
    refine ⟨?_, ?_, h₃ ▸ hadded, fun id hid => ?_, h₅, h₆⟩
    · rw [h₁, pairID_idPair, htracks.shows.lastID]
    · rw [h₂, pairID_idPair, htracks.shows.maxDeletedID]
    · rw [h₄, hid]
      rfl
  have hsettled₀ : GroupsSettled s.groups := hgroups₀ ▸ hstored₀.valid.settled
  rcases hgroups : item.groups with - | packed
  · -- the stored value was not touched
    have hsame : p.normalize.groups = s.groups := by
      have hdecode := hstored.decode
      rw [hnoted.unpublished hgroups, hstored₀.decode] at hdecode
      rw [hgroups₀, ← Option.some.inj hdecode]
    rw [changeDelta, hgroups]
    refine ⟨rfl, htracks.appended, by rw [← htracks.count],
      htells _ rfl rfl rfl rfl rfl rfl, rfl, ?_⟩
    rw [hsame, diffStreamGroups_self hsettled₀]
    rfl
  · obtain ⟨rfl, hpre, -⟩ := hnoted.published packed hgroups
    have hops : groupOpsFor item = some (diffStreamGroups s.groups p.normalize.groups) := by
      rw [groupOpsFor, hpre, hgroups]
      simp only [some_bind, hstored₀.decode,
        readStreamGroups_of_stored hstored]
      rw [if_neg (not_not.2 rfl), hgroups₀]
    simp only [changeDelta, hgroups, hops]
    exact ⟨rfl, htracks.appended, by rw [← htracks.count],
      htells _ rfl rfl rfl rfl rfl rfl, rfl, rfl⟩

variable {ct : Cell}

theorem applyStreamDelta_eq {d : StreamDelta}
    (hd : Describes d s j l groups added) (htracks : Tracks log j s.log l added)
    (hfew : added.length ≤ 1) (hlive : Live expiresAt call.now) {stubt : Bytes} {bt : Body}
    {lt : Log} {pt : PackedStream}
    (hslot : ct.slot = some ⟨.stream stubt bt, expiresAt⟩) (hj : bt.j = none)
    (hshows : bt.Shows lt) (hlt : lt = s.log ∨ lt = l) (hstored : Stored stubt pt) (x : Int64) :
    ∃ b', b'.j = none ∧ b'.Shows (replayed lt l) ∧
      applyStreamDelta call true d x ct =
        if d.groupOps.any fun op => op.name = [] then (.error .badDelta, ct)
        else
          (if outrun b' then fail .badDelta else if !d.groupOps.isEmpty then
              publishStreamState call ⟨b'.lastID, b'.entriesAdded, b'.maxDeletedID,
                applyGroupOps pt.normalize.groups d.groupOps, b'⟩
            else pure () : CellM Unit) { ct with slot := some ⟨.stream stubt b', expiresAt⟩ } := by
  obtain ⟨b', hlog, hj', hshows'⟩ :=
    @applyToLog_spec log bt j s.log l lt added call.env htracks hshows hj hlt d hd.tells
  refine ⟨b', hj', hshows', ?_⟩
  have hdelete : ¬ d.delete.length % 16 ≠ 0 := by
    rw [hd.tells.delete, length_flatMap_idBytes]
    omega
  have hparse : parseStreamEntryBlock d.append d.appendCount = some added := by
    rw [hd.append, hd.appendCount]
    exact parseStreamEntryBlock_entriesBytes (pairwise_append.1 htracks.ascending).2.1
      (fun e he => (htracks.fresh e he).2.2) hfew
  have hgroups : deltaGroups d = some [] := by rw [deltaGroups, hd.groupsSet]; rfl
  rw [applyStreamDelta, if_neg hdelete, hparse, hgroups, ofOption_some_bind,
    ofOption_some_bind]
  by_cases hname : (d.groupOps.any fun op => decide (op.name = [])) = true
  · rw [if_pos hname, if_pos hname]
    rfl
  · have hset : setLog b' ct =
        (.ok (), { ct with slot := some ⟨.stream stubt b', expiresAt⟩ }) := by
      rw [setLog, hslot]
    have hlive' : liveStream call.now ct = (.ok (stubt, bt), ct) := by
      simp only [liveStream, hslot, hlive.not_expired, Bool.false_eq_true, if_false]
    have hcreate : ¬ d.create = true := by simp [hd.create]
    rw [if_neg hname, if_neg hname, if_neg hcreate, bind_ok hlive']
    change updateStream call true d added [] stubt bt ct = _
    rw [updateStream, hstored.decode, hlog, ofOption_some_bind,
      bind_ok (show admitDelta call true d ct = (.ok (), ct) from rfl),
      ofOption_some_bind, bind_ok hset]
    simp [hd.groupsSet]

theorem outrun_of_shows {b : Body} {l' : Log} (h : b.Shows l')
    (hbounded : ∀ e ∈ l'.entries, e.id ≤ l'.lastID) :
    outrun b = decide (l'.entriesAdded < l'.entries.length) := by
  have hlast : (b.lastEntryID.any fun last => b.lastID.less last) = false := by
    cases hid : b.lastEntryID with
    | none => rfl
    | some id =>
      obtain ⟨e, he, rfl⟩ := lastEntryID_of_is h.is id hid
      simpa [h.lastID] using hbounded e he
  rw [outrun, hlast, Bool.false_or, h.entriesAdded, h.is.agrees.length]

/-- Publishing outside a transaction and without a memory limit. -/
theorem publishStreamState_idle {st : State} {old : Bytes} {b : Body}
    (hitem : c.item = none) (hslot : c.slot = some ⟨.stream old b, expiresAt⟩)
    (hencode : encodeStreamStub st = some stub)
    (hfits : streamTooLarge call (streamLogicalSize st stub.length) stub.length = false) :
    publishStreamState call.unlimited st c =
      (.ok (), ⟨some ⟨.stream stub b, expiresAt⟩, none⟩) := by
  have hfits' : streamTooLarge call.unlimited (streamLogicalSize st stub.length) stub.length =
      false := hfits
  rw [publishStreamState, hencode, ofOption_some_bind, hfits']
  simp [Call.unlimited, notePreStub, noteStreamGroups, hitem, hslot]

/-- What the replay of a change needs. -/
structure Carried (s : Start) (l : Log) (groups : List Group) : Prop where
  named : lookupLast Group.name s.groups [] = lookupLast Group.name groups []
  forward : s.log.entriesAdded ≤ l.entriesAdded
  counted : l.entries.length ≤ l.entriesAdded

section Existing

variable {d : StreamDelta}

/-- The key existed, the command is over, and `d` is the delta of its change. -/
structure Changed (call : Call) (s : Start) (item : Item) (stub : Bytes) (log : Body) (j : Journal)
    (l : Log) (p : PackedStream) (added : List StreamEntry) : Prop where
  tracks : Tracks log j s.log l added
  few : added.length ≤ 1
  sound : l.Sound
  stored : Stored stub p
  noted : Noted GroupsEvolve call s item stub log l p
  settled : GroupsSettled s.groups

theorem replay_of_carried (hc : Changed call s item stub log j l p added)
    (hd : Describes d s j l p.normalize.groups added)
    (hops : d.groupOps ≠ [] → item.groups.isSome = true)
    (hcarried : Carried s l p.normalize.groups) (hspill : Spills call again)
    (hlive : Live s.expiresAt again.now) (hsound : ct.Sound)
    (hview : ct.view = .stream s.log s.groups s.expiresAt ∨
      ct.view = .stream l p.normalize.groups s.expiresAt) (x : Int64) :
    ∃ ct', applyStreamDelta again.unlimited true d x ct = (.ok (), ct') ∧ ct'.Sound ∧
      ct'.view = .stream l p.normalize.groups s.expiresAt := by
  -- the copy shows the stream before or after
  obtain ⟨lt, gt, hlt, hgt, hview⟩ : ∃ lt gt, (lt = s.log ∨ lt = l) ∧
      (gt = s.groups ∨ gt = p.normalize.groups) ∧ ct.view = .stream lt gt s.expiresAt := by
    rcases hview with hview | hview
    · exact ⟨_, _, .inl rfl, .inl rfl, hview⟩
    · exact ⟨_, _, .inr rfl, .inr rfl, hview⟩
  obtain ⟨stubt, bt, pt, hslot, hj, hshows, -, hstored, rfl⟩ := hsound.stream hview
  have hlive : Live s.expiresAt again.unlimited.now := hlive
  obtain ⟨b', hj', hshows', happly⟩ := applyStreamDelta_eq hd hc.tracks hc.few hlive hslot hj
    hshows hlt hstored x
  have hreplayed : replayed lt l = l := by
    have hle : lt.entriesAdded ≤ l.entriesAdded := by
      rcases hlt with rfl | rfl
      · exact hcarried.forward
      · exact le_refl _
    rw [replayed, max_eq_right hle]
  rw [hreplayed] at hshows'
  have hnames : (d.groupOps.any fun op => decide (op.name = [])) = false := by
    rw [hd.groupOps]
    refine any_eq_false.2 fun op hop => ?_
    simpa using (names_empty_iff hc.settled hc.stored.valid.settled hc.noted.relates).2
      hcarried.named op hop
  have hgroups : applyGroupOps pt.normalize.groups d.groupOps = p.normalize.groups := by
    rw [hd.groupOps]
    exact applyGroupOps_diff hc.settled hc.stored.valid.settled hc.noted.relates hgt
  have hrun : outrun b' = false := by
    rw [outrun_of_shows hshows' hc.sound.bounded]
    simpa using hcarried.counted
  -- the cell that holds the new log and a stored value with the groups after
  have hdone : ∀ stub' p', Stored stub' p' → p'.normalize.groups = p.normalize.groups →
      (⟨some ⟨.stream stub' b', s.expiresAt⟩, none⟩ : Cell).Sound ∧
      (⟨some ⟨.stream stub' b', s.expiresAt⟩, none⟩ : Cell).view =
        .stream l p.normalize.groups s.expiresAt := by
    intro stub' p' hstored' hgroups'
    refine ⟨⟨rfl, ?_⟩, ?_⟩
    · rintro _ _ _ ⟨⟩
      exact ⟨hj', l, p', hshows', hc.sound, hstored'⟩
    · rw [view_of_stream rfl hshows' hstored', hgroups']
  rw [happly, hnames, hrun]
  by_cases hnil : d.groupOps = []
  · rw [hnil] at hgroups
    obtain ⟨hs, hv⟩ := hdone stubt pt hstored hgroups
    refine ⟨_, ?_, hs, hv⟩
    rw [hnil, hsound.idle]
    rfl
  · obtain ⟨packed, hpacked⟩ := Option.isSome_iff_exists.1 (hops hnil)
    obtain ⟨-, -, hadded, hfitting⟩ := hc.noted.published packed hpacked
    obtain ⟨stub', p', hencode, hstored', hgroups', hlength⟩ :=
      encodeStreamStub_of_stored hc.stored hc.sound.deleted b'
    obtain ⟨hs, hv⟩ := hdone stub' p' hstored' hgroups'
    refine ⟨_, ?_, hs, hv⟩
    have hisEmpty : (!d.groupOps.isEmpty) = true := by simpa using hnil
    rw [if_pos hisEmpty, hgroups, hshows'.lastID, hshows'.entriesAdded, hshows'.maxDeletedID,
      ← hadded]
    refine publishStreamState_idle hsound.idle rfl hencode ?_
    have hbytes : b'.dataBytes = log.dataBytes := by
      rw [hshows'.is.agrees.dataBytes, hc.tracks.shows.is.agrees.dataBytes]
    change streamTooLarge again (b'.dataBytes + stub'.length) stub'.length = false
    rw [hbytes, hlength]
    exact hspill.fits hfitting

/-- A delta that makes no stream is refused when the deadline of its key has passed. -/
theorem live_of_applyStreamDelta {force : Bool} {x : Int64} {v : Value} {ct' : Cell}
    (hcreate : d.create = false) (hslot : ct.slot = some ⟨v, expiresAt⟩)
    (hrun : applyStreamDelta call force d x ct = (.ok (), ct')) : Live expiresAt call.now := by
  by_contra hdead
  have hexpired : Slot.expired ⟨v, expiresAt⟩ call.now = true := by
    obtain ⟨hne, hle⟩ := not_or.1 hdead
    simpa [Slot.expired, hne] using Int64.not_lt.1 hle
  have hrefused : liveStream call.now ct = (.error .badDelta, ct) := by
    simp only [liveStream, hslot, hexpired, if_true]
  suffices h : Ensures (fun c => c = ct) (applyStreamDelta call force d x) fun _ _ => False from
    h.ok rfl hrun
  refine Meets.ite (fun _ => Meets.fail fun _ _ => trivial) fun _ =>
    Meets.bind_ofOption (fun _ _ _ => trivial) fun entries _ =>
      Meets.bind_ofOption (fun _ _ _ => trivial) fun groups _ =>
        Meets.ite (fun _ => Meets.fail fun _ _ => trivial) fun _ => ?_
  rw [if_neg (by simp [hcreate])]
  rintro c rfl
  rw [bind_error hrefused]
  trivial

theorem entriesAdded_of_view {b : Body} {at' : Int64}
    (hslot : c.slot = some ⟨.stream stub b, expiresAt⟩) (hview : c.view = .stream l groups at') :
    b.entriesAdded = l.entriesAdded := by
  rw [view, hslot] at hview
  simp only at hview
  split at hview
  · cases hview
    rfl
  · cases hview

theorem carried_of_replay (hc : Changed call s item stub log j l p added)
    (hd : Describes d s j l p.normalize.groups added) {ct' : Cell} (hsound : ct.Sound)
    (hview : ct.view = .stream s.log s.groups s.expiresAt) {x : Int64}
    (hrun : applyStreamDelta again.unlimited true d x ct = (.ok (), ct'))
    (hview' : ct'.view = .stream l p.normalize.groups s.expiresAt) :
    Carried s l p.normalize.groups := by
  obtain ⟨stubt, bt, pt, hslot, hj, hshows, -, hstored, -⟩ := hsound.stream hview
  have hlive := live_of_applyStreamDelta hd.create hslot hrun
  obtain ⟨b', -, hshows', happly⟩ := applyStreamDelta_eq hd hc.tracks hc.few hlive hslot hj
    hshows (.inl rfl) hstored x
  rw [happly] at hrun
  by_cases hnames : (d.groupOps.any fun op => decide (op.name = [])) = true
  · rw [if_pos hnames] at hrun
    cases hrun
  · rw [if_neg hnames] at hrun
    by_cases houtrun : outrun b' = true
    · rw [if_pos houtrun] at hrun
      cases hrun
    · have hslot' : ∃ stub', ct'.slot = some ⟨.stream stub' b', s.expiresAt⟩ := by
        split_ifs at hrun
        · obtain ⟨stub', rfl, -⟩ := (publishes _ _ rfl).ok rfl hrun
          exact ⟨stub', rfl⟩
        · cases hrun
          exact ⟨stubt, rfl⟩
      obtain ⟨stub', hslot'⟩ := hslot'
      -- the counter shown is the one of the log after the command
      have hadded : max s.log.entriesAdded l.entriesAdded = l.entriesAdded :=
        hshows'.entriesAdded.symm.trans (entriesAdded_of_view hslot' hview')
      have hforward := max_eq_right_iff.1 hadded
      refine ⟨?_, hforward, ?_⟩
      · refine (names_empty_iff hc.settled hc.stored.valid.settled hc.noted.relates).1 ?_
        intro op hop hname
        rw [hd.groupOps] at hnames
        exact hnames (any_eq_true.2 ⟨op, hop, by simpa using hname⟩)
      · rw [outrun_of_shows hshows' hc.sound.bounded] at houtrun
        simpa [replayed, hadded] using houtrun

end Existing

/-- The record of a stream the command made makes it, whatever was there. -/
theorem replay_created (hshows : log.Shows l) (hsound : l.Sound) (hstored : Stored stub p)
    (hmade : Made item expiresAt l p) (hct : ct.item = none) :
    ∃ ct', applyStreamDelta call.unlimited true (createDelta item log) 0 ct = (.ok (), ct') ∧
      ct'.Sound ∧ ct'.view = .stream l p.normalize.groups expiresAt := by
  have hfits := hshows.is.fits
  have hparse : parseStreamEntryBlock log.packedEntries (Int64.ofNat log.length) =
      some l.entries := by
    rw [packedEntries_of_is hshows.is, hshows.is.agrees.length]
    exact parseStreamEntryBlock_entriesBytes hsound.ascending
      (fun e he => ⟨hfits e he, hsound.fields e he⟩) hmade.few
  have hgroups : deltaGroups (createDelta item log) = some p.normalize.groups := by
    simp only [deltaGroups, createDelta, hmade.groups, Bool.not_true, Bool.false_eq_true, if_false,
      Option.getD_some, readStreamGroups_of_stored hstored, some_bind]
    rw [if_neg (not_not.2 rfl)]
  have hadded : (UInt64.ofNat log.entriesAdded).toNat = l.entriesAdded := by
    rw [hshows.entriesAdded]
    exact UInt64.toNat_ofNat_of_lt' hsound.added
  have hchecks : ¬ ((decide ((createDelta item log).entriesAdded.toNat < l.entries.length) ||
      (pairID (createDelta item log).lastID).less (pairID (createDelta item log).maxDeletedID) ||
      l.entries.getLast?.any fun e =>
        (pairID (createDelta item log).lastID).less e.id) = true) := by
    have hlast : (l.entries.getLast?.any fun e => log.lastID.less e.id) = false := by
      cases hl : l.entries.getLast? with
      | none => rfl
      | some e => simpa [hshows.lastID] using hsound.bounded e (mem_of_getLast? hl)
    simp only [createDelta, counters, hadded, pairID_idPair, hlast, Bool.or_false]
    simpa [hshows.lastID, hshows.maxDeletedID] using ⟨hmade.counted, hsound.deleted⟩
  obtain ⟨b, hbody, hj, hb⟩ := streamBodyFromEntries_spec call.env hsound hfits p.normalize.groups
  obtain ⟨stub', p', hencode, hstored', hgroups', -⟩ :=
    encodeStreamStub_of_stored hstored hsound.deleted b
  rw [hmade.added] at hencode
  obtain ⟨hspillj, hspill⟩ := spillCold_shows call.env hb hj
  refine ⟨⟨some ⟨.stream stub' (b.spillCold call.env), 0⟩, none⟩, ?_, ⟨rfl, ?_⟩, ?_⟩
  · change (ofOption StreamError.badDelta
      (parseStreamEntryBlock log.packedEntries (Int64.ofNat log.length)) >>= _) ct = _
    rw [hparse, hgroups, ofOption_some_bind, ofOption_some_bind,
      if_neg (by simp [createDelta, counters]), if_pos (by rfl), if_neg hchecks]
    simp only [createDelta, counters, pairID_idPair, hadded, hshows.lastID, hshows.maxDeletedID]
    rw [installStream, show call.unlimited.env = call.env from rfl, hbody,
      ofOption_some_bind, hencode, ofOption_some_bind, ← hct]
    rfl
  · rintro _ _ _ ⟨⟩
    exact ⟨hspillj, l, p', hspill, hsound, hstored'⟩
  · rw [view_of_stream rfl hspill hstored', hgroups', hmade.eternal]

end Key

/-- The changes a replay gets right at the time `now`: none, or one that leaves the group without a
name alone and the counter of entries at or above its old value and the number of entries, if the
deadline of the key has not passed then. -/
def Replayable (now : Int64) : View → View → Prop
  | .stream l₀ groups₀ _, .stream l groups expiresAt =>
    l = l₀ ∧ groups = groups₀ ∨
      lookupLast Group.name groups₀ [] = lookupLast Group.name groups [] ∧
        l₀.entriesAdded ≤ l.entriesAdded ∧ l.entries.length ≤ l.entriesAdded ∧
          Live expiresAt now
  | _, _ => True

theorem replayable_self (now : Int64) (v : View) : Replayable now v v := by
  cases v with
  | stream l groups expiresAt => exact .inl ⟨rfl, rfl⟩
  | missing => trivial
  | other data expiresAt => trivial
  | damaged => trivial

/-- What the record of a key, if there is one, does to a copy of it. -/
structure Restores (call : Call) (o : Option StreamDelta) (v₀ v : View) : Prop where
  unchanged : o = none → v = v₀
  replay : ∀ d, o = some d → ∀ again, Spills call again → Replayable again.now v₀ v →
    ∀ ct : Cell, ct.Sound → ct.view = v₀ ∨ ct.view = v →
      ∃ ct', applyStreamDelta again.unlimited true d 0 ct = (.ok (), ct') ∧ ct'.Sound ∧ ct'.view = v
  sharp : ∀ d, o = some d → ∀ (again : Call) (ct ct' : Cell), ct.Sound → ct.view = v₀ →
    applyStreamDelta again.unlimited true d 0 ct = (.ok (), ct') → ct'.view = v →
      Replayable again.now v₀ v
  timely : ∀ d, o = some d → ∀ now, Replayable now v₀ v → ∀ (again : Call) (ct ct' : Cell),
    ct.Sound → ct.view = v → applyStreamDelta again.unlimited true d 0 ct = (.ok (), ct') →
      Replayable again.now v₀ v

theorem restores_nothing (call : Call) {v₀ v : View} (h : v = v₀) : Restores call none v₀ v :=
  ⟨fun _ => h, by simp, by simp, by simp⟩

/-- The delta of a stream that existed is left out exactly when nothing changed. -/
theorem delta_of_changed {s : Start} {item : Item} {j : Journal}
    (hslot : c.slot = some ⟨.stream stub log, expiresAt⟩)
    (hitem : c.item = some item) (hc : Changed call s item stub log j l p added)
    (hd : Describes (changeDelta item log j) s j l p.normalize.groups added) :
    c.delta = some (if l = s.log ∧ p.normalize.groups = s.groups then none
      else some (changeDelta item log j)) := by
  have hempty : diffStreamGroups s.groups p.normalize.groups = [] ↔
      p.normalize.groups = s.groups := by
    constructor
    · intro hnil
      have := applyGroupOps_diff hc.settled hc.stored.valid.settled hc.noted.relates (.inl rfl)
      rw [show p.groups.map Group.normalize = p.normalize.groups from rfl, hnil] at this
      exact this.symm
    · intro heq
      rw [heq, diffStreamGroups_self hc.settled]
  have htouched : j.touched = false ↔ l = s.log := by
    refine ⟨hc.tracks.untouched, fun heq => ?_⟩
    by_contra h
    exact hc.tracks.ne_of_touched (by simpa using h) heq
  simp only [delta, hitem, hc.noted.kept, hslot, hc.noted.existed, hc.tracks.attached,
    Bool.not_true, Bool.false_eq_true, if_false, hd.groupsSet, hd.groupOps, Bool.not_false,
    Bool.and_true]
  by_cases hsame : l = s.log ∧ p.normalize.groups = s.groups
  · rw [if_pos hsame, if_pos (by simp [htouched.2 hsame.1, hempty.2 hsame.2])]
  · rw [if_neg hsame, if_neg]
    simp only [Bool.and_eq_true, Bool.not_eq_true', List.isEmpty_iff, hempty, htouched]
    exact hsame

theorem restores_of_held {start : Option Start} {c₀ : Cell}
    (h : Held GroupsEvolve call start c) (hbegan : Began c₀ start)
    {o : Option StreamDelta} (ho : c.delta = some o) : Restores call o c₀.view c.view := by
  have hmissing : start = none → c₀.view = .missing := by
    intro hstart
    rw [view, hbegan.missing hstart]
  rcases h with ⟨hstart, hblank⟩ | ⟨stub, log, expiresAt, l, p, added, hw, -⟩
  · -- nothing before and nothing after
    have hview : c.view = .missing := by rw [view, hblank.1]
    simp only [delta, hblank.1, hblank.2, Bool.false_eq_true, if_false] at ho
    cases ho
    exact restores_nothing call (hview.trans (hmissing hstart).symm)
  · have hview := view_of_stream hw.slot hw.keeps.shows hw.stored
    cases hstart : start with
    | none =>
      obtain ⟨item, hitem, hmade⟩ := hw.made hstart
      simp only [delta, hitem, hmade.kept, hmade.existed, hw.slot, Bool.false_eq_true,
        if_false, Bool.not_false, if_true, Option.some.injEq] at ho
      subst ho
      rw [hmissing hstart, hview]
      refine ⟨by simp, ?_, fun _ _ _ _ _ _ _ _ _ => trivial, fun _ _ _ _ _ _ _ _ _ _ => trivial⟩
      rintro d ⟨⟩ again - - ct hct -
      exact replay_created hw.keeps.shows hw.sound hw.stored hmade hct.idle
    | some s =>
      subst hstart
      obtain ⟨rfl, -, item, hitem, hnoted⟩ := hw.noted s rfl
      obtain ⟨j, htracks⟩ := hw.keeps
      obtain ⟨-, log₀, p₀, hslot₀, hshows₀, hstored₀, hgroups₀⟩ := hbegan.stream s rfl
      have hview₀ : c₀.view = .stream s.log s.groups s.expiresAt := by
        rw [view_of_stream hslot₀ hshows₀ hstored₀, hgroups₀]
      have hc : Changed call s item stub log j l p added :=
        ⟨htracks, hw.few, hw.sound, hw.stored, hnoted, hgroups₀ ▸ hstored₀.valid.settled⟩
      have hd := changeDelta_describes hbegan htracks hw.sound hw.stored hnoted
      rw [delta_of_changed hw.slot hitem hc hd, Option.some.injEq] at ho
      rw [hview, hview₀]
      by_cases hsame : l = s.log ∧ p.normalize.groups = s.groups
      · rw [if_pos hsame] at ho
        subst ho
        exact restores_nothing call (by rw [hsame.1, hsame.2])
      · rw [if_neg hsame] at ho
        subst ho
        refine ⟨by simp, ?_, ?_, ?_⟩
        · rintro d ⟨⟩ again hspill hreplayable ct hct hctView
          obtain ⟨h₁, h₂, h₃, hlive⟩ := hreplayable.resolve_left hsame
          refine replay_of_carried hc hd (fun hops => ?_) ⟨h₁, h₂, h₃⟩ hspill
            hlive hct hctView 0
          cases hgroups : item.groups with
          | some packed => rfl
          | none => exact absurd (by simp [changeDelta, hgroups, counters]) hops
        · rintro d ⟨⟩ again ct ct' hct hctView hrun hview'
          obtain ⟨h₁, h₂, h₃⟩ := carried_of_replay hc hd hct hctView hrun hview'
          obtain ⟨_, _, _, hslot, -⟩ := hct.stream hctView
          have hlive := live_of_applyStreamDelta hd.create hslot hrun
          exact .inr ⟨h₁, h₂, h₃, hlive⟩
        · rintro d ⟨⟩ now hreplayable again ct ct' hct hctView hrun
          obtain ⟨h₁, h₂, h₃, -⟩ := hreplayable.resolve_left hsame
          obtain ⟨_, _, _, hslot, -⟩ := hct.stream hctView
          have hlive := live_of_applyStreamDelta hd.create hslot hrun
          exact .inr ⟨h₁, h₂, h₃, hlive⟩

/-! ## All keys -/

/-- A key that was only begun has no record and shows what it showed. -/
theorem delta_of_begun {c' : Cell} {now : Int64} (h : c.begin now = some c') :
    c'.delta = some none ∧ c'.view = c.view := by
  unfold begin at h
  split at h
  · next hslot =>
      cases h
      simp [delta, view, hslot]
  · next slot hslot =>
      split_ifs at h
      split at h
      · cases h
      · next stub log hvalue =>
          cases h
          obtain ⟨value, expiresAt⟩ := slot
          cases hvalue
          refine ⟨?_, ?_⟩
          · simp [delta, changeDelta, Journal.touched, counters]
          · rw [view, view, hslot]
            rfl

def keyRecord (deltas : Bytes → Option StreamDelta) (key : Bytes) : Option Record :=
  (deltas key).map (deltaRecord key)

theorem mapM_eq_some {β : Type} {f : α → Option β} {xs : List α} {ys : List β}
    (h : xs.mapM f = some ys) : xs.map f = ys.map some := by
  induction xs generalizing ys with
  | nil =>
    cases h
    rfl
  | cons x xs ih =>
    simp only [mapM_cons, Option.bind_eq_bind, Option.bind_eq_some_iff] at h
    obtain ⟨y, hy, ys', hys, ⟨⟩⟩ := h
    rw [map_cons, map_cons, hy, ih hys]

/-- Every key of the transaction has its say in the records. -/
theorem records_eq_some {rs : List Record} (h : records s = some rs) :
    ∃ deltas : Bytes → Option StreamDelta,
      (∀ key ∈ s.tx.getD [], (s.cell key).delta = some (deltas key)) ∧
        rs = (s.tx.getD []).filterMap (keyRecord deltas) := by
  obtain ⟨os, hos, rfl⟩ := Option.map_eq_some_iff.1 h
  have hmap := mapM_eq_some hos
  have hdelta : ∀ key ∈ s.tx.getD [], (s.cell key).delta = some ((s.cell key).delta.getD none) := by
    intro key hkey
    have hmem : (s.cell key).delta.map (fun d => d.map (deltaRecord key)) ∈ os.map some :=
      hmap ▸ mem_map_of_mem hkey
    obtain ⟨o, -, ho⟩ := mem_map.1 hmem
    obtain ⟨d, hd, -⟩ := Option.map_eq_some_iff.1 ho.symm
    rw [hd, Option.getD_some]
  refine ⟨fun key => (s.cell key).delta.getD none, hdelta, ?_⟩
  have hlist : os.map some =
      ((s.tx.getD []).map (keyRecord fun key => (s.cell key).delta.getD none)).map some := by
    rw [← hmap, map_map]
    refine map_congr_left fun key hkey => ?_
    rw [hdelta key hkey]
    rfl
  rw [map_injective_iff.2 (Option.some_injective _) hlist, filterMap_map]
  rfl

/-- What the record of a key does to it. -/
def replayKey (call : Call) (deltas : Bytes → Option StreamDelta) (key : Bytes) : CellM Unit :=
  match deltas key with
  | none => pure ()
  | some d => applyStreamDelta call true d 0

theorem applyRecords_eq (call : Call) (deltas : Bytes → Option StreamDelta) (keys : List Bytes) :
    applyRecords call true (keys.filterMap (keyRecord deltas)) =
      eachKey (replayKey call deltas) keys := by
  induction keys with
  | nil => rfl
  | cons key keys ih =>
    rw [eachKey, ← ih]
    cases hd : deltas key with
    | none =>
      simp only [filterMap_cons, keyRecord, hd, Option.map_none, replayKey]
      funext s
      refine (bind_ok (onKey_eq.2 ⟨s.cell key, rfl, ?_⟩)).symm
      simp [Store.set]
    | some d =>
      simp only [filterMap_cons, keyRecord, hd, Option.map_some, replayKey]
      rfl

/-! ## Deadlines -/

def Lost (c : Cell) : Prop := ∃ item, c.item = some item ∧ item.lost = true

/-- A missing key can only be made, and that does not bring back what was lost. -/
theorem Works.lost {care : Prop} {free : Bool} {l₀ : Option Log} {base : Log}
    (h : Works care free call l₀ gs base .absent log l added m) :
    Meets Lost m (fun _ => Lost) fun _ => Lost := by
  generalize hstage : Stage.absent = stage at h
  induction h with
  | pure a => exact .pure fun _ hc => hc
  | fail _ => exact .fail fun _ hc => hc
  | thenPure _ b ih => exact (ih hstage).bind fun _ => .pure fun _ hc => hc
  | grant st size _ _ ih =>
    exact ((admitEntry_meets st size).imp (fun _ hc => hc) (fun _ _ hc => hc)
      fun _ _ hc => hc.2).bind
      fun _ => ih hstage
  | create _ _ _ _ _ _ _ =>
    refine Meets.given fun c hc => (creates call _ c).imp (fun _ hx => hx) ?_ ?_
    · rintro _ _ ⟨stub, rfl, -⟩
      obtain ⟨item, hitem, hlost⟩ := hc
      refine ⟨_, congrArg (Option.map _) hitem, ?_⟩
      split <;> simp [hlost]
    · rintro _ _ ⟨rfl, -⟩
      exact hc
  | append _ _ _ _ _ _ _ => cases hstage
  | publish h _ _ _ _ _ _ _ => subst hstage; simp at h
  | shrink h _ => exact absurd hstage.symm h

/-- A command that meets a passed deadline has lost its key. -/
theorem Runs.lost {care : Log → List Group → Prop} {free : Bool}
    (h : Runs care free call m) {c' : Cell} {a : α} (hrun : m c = (.ok a, c'))
    {item : Item}
    (hslot : c.slot = some ⟨.stream stub log, expiresAt⟩) (hitem : c.item = some item)
    (hexpired : Slot.expired ⟨.stream stub log, expiresAt⟩ call.now = true) : Lost c' := by
  have hlog : Stream.loadLog call.now c = (.ok none, c.removed) := by
    simp [Stream.loadLog, hslot, hexpired]
  have hlost : Lost c.removed :=
    ⟨{ item with lost := true }, by simp [removed, hslot, hitem], rfl⟩
  cases h with
  | fail _ => cases hrun
  | loadLog hnone _ =>
    exact hnone.lost.ok hlost ((bind_ok hlog).symm.trans hrun)

/-- XREADGROUP needs every key it names. -/
theorem groupReadLoop_live {group consumer : Bytes} {count : Int} {noAck : Bool}
    {reads : List (Bytes × ReadCursor)} {s' : Store}
    (hrun : groupReadLoop call group consumer count noAck reads s = (.ok (), s'))
    (hkey : key ∈ reads.map Prod.fst) {slot : Slot} (hslot : (s.cell key).slot = some slot) :
    slot.expired call.now = false := by
  induction reads generalizing s with
  | nil => cases hkey
  | cons r reads ih =>
    obtain ⟨k, cursor⟩ := r
    obtain ⟨_, s₁, hfirst, hrest⟩ := bind_eq_ok.1 hrun
    obtain ⟨entries, s₂, hread, hs₂⟩ := bind_eq_ok.1 hfirst
    cases hs₂
    obtain ⟨c', hc', rfl⟩ := onKey_eq.1 hread
    by_cases heq : key = k
    · subst heq
      by_contra hexpired
      obtain ⟨st, c₁, hload, -⟩ := bind_eq_ok.1 hc'
      have hlog : loadLog call.now (s.cell key) = (.ok none, (s.cell key).removed) := by
        simp [loadLog, hslot, hexpired]
      rw [loadGroup, loadStream, bind_assoc, bind_ok hlog] at hload
      cases hload
    · refine ih hrest ((mem_cons.1 hkey).resolve_left heq) ?_
      rwa [Store.cell_set_of_ne heq]

theorem execute_tx {s' : Store} (hrun : cmd.execute call s = (.ok (), s')) : s'.tx = s.tx := by
  have hkey : ∀ {α : Type} (key : Bytes) (m : CellM α),
      Ensures (fun x : Store => x.tx = s.tx) (onKey key m) fun _ x => x.tx = s.tx := by
    intro α key m x hx
    split
    · next heq => rw [← (Prod.mk.inj heq).2]; exact hx
    · trivial
  suffices h : Ensures (fun x : Store => x.tx = s.tx) (cmd.execute call)
      fun _ x => x.tx = s.tx from h.ok rfl hrun
  cases cmd with
  | one key cmd => exact hkey key _
  | groupRead group consumer keys cursors count noAck =>
    rw [Command.execute]
    split_ifs
    · exact .fail fun _ _ => trivial
    · exact .fail fun _ _ => trivial
    generalize keys.zip cursors = reads
    induction reads with
    | nil => exact .pure fun _ hx => hx
    | cons r reads ih => exact ((hkey r.1 _).bind fun _ => .pure fun _ hx => hx).bind fun _ => ih

/-- The records of a command whose key had a deadline that passed are refused. -/
theorem live_of_records {s₁ s₂ : Store} {env : Env} {now : Int64} {keys : List Bytes}
    (hbegin : beginStreamTx env now keys s = (s₁, true))
    (hkeys : ∀ key ∈ cmd.keys, key ∈ keys) (hrun : cmd.execute call s₁ = (.ok (), s₂))
    (hdelta : ∀ key ∈ keys, (s₂.cell key).delta ≠ none) (hkey : key ∈ cmd.keys)
    {slot : Slot} (hslot : (s.cell key).slot = some slot) : slot.expired call.now = false := by
  obtain ⟨done, -, -, -, -, hbegun⟩ := beginStreamTx_spec hbegin
  obtain ⟨stub, log, item, hslot', hitem⟩ : ∃ stub log item,
      (s₁.cell key).slot = some ⟨.stream stub log, slot.expiresAt⟩ ∧
        (s₁.cell key).item = some item := by
    have hb := hbegun key (hkeys key hkey)
    obtain ⟨value, expiresAt⟩ := slot
    unfold begin at hb
    rw [hslot] at hb
    simp only at hb
    split_ifs at hb
    cases value with
    | other data => cases hb
    | stream stub log =>
      rw [← Option.some.inj hb]
      exact ⟨_, _, _, rfl, rfl⟩
  have hsame : slot.expired call.now = Slot.expired ⟨.stream stub log, slot.expiresAt⟩ call.now :=
    rfl
  rw [hsame]
  cases cmd with
  | one k cmd =>
    obtain rfl := mem_singleton.1 hkey
    obtain ⟨c', hc', rfl⟩ := onKey_eq.1 hrun
    by_contra hexpired
    obtain ⟨item', hitem', hlost⟩ :=
      (run_runs call cmd).lost hc' hslot' hitem (by simpa using hexpired)
    refine hdelta key (hkeys key hkey) ?_
    rw [Store.cell_set]
    simp [delta, hitem', hlost]
  | groupRead group consumer keys cursors count noAck =>
    simp only [Command.execute] at hrun
    split_ifs at hrun with hlength
    · cases hrun
    · cases hrun
    · refine groupReadLoop_live hrun ?_ hslot'
      rw [map_fst_zip (not_not.1 hlength).le]
      exact hkey

/-- One replay, from a copy of the store before or after. -/
theorem eachKey_replays {keys : List Bytes} (hnodup : keys.Nodup)
    {deltas : Bytes → Option StreamDelta} {v₀ v : Bytes → View}
    (hrestores : ∀ key ∈ keys, Restores call (deltas key) (v₀ key) (v key)) {again : Call}
    (hspill : Spills call again) (hreplayable : ∀ key ∈ keys, Replayable again.now (v₀ key) (v key))
    {t : Store} (ht : t.Sound)
    (hviews : ∀ key ∈ keys, (t.cell key).view = v₀ key ∨ (t.cell key).view = v key) :
    ∃ t', eachKey (replayKey again.unlimited deltas) keys t = (.ok (), t') ∧ t'.Sound ∧
      OnlyAt keys (fun key c => c.view = v key) t t' := by
  have hkeys : ∀ key ∈ keys, ∃ c', replayKey again.unlimited deltas key (t.cell key) =
      (.ok (), c') ∧ c'.Sound ∧ c'.view = v key := by
    intro key hkey
    rw [replayKey]
    cases hd : deltas key with
    | none =>
      have hsame := (hrestores key hkey).unchanged hd
      exact ⟨_, rfl, ht.cells key, (hviews key hkey).elim (fun h => h.trans hsame.symm) id⟩
    | some d =>
      exact (hrestores key hkey).replay d hd again hspill (hreplayable key hkey) _ (ht.cells key)
        (hviews key hkey)
  obtain ⟨t', hrun, hin, hout, htx⟩ := eachKey_onlyAt hnodup hkeys
  refine ⟨t', hrun, ⟨htx.trans ht.idle, fun key => ?_⟩, fun k hk => (hin k hk).2, hout, htx⟩
  by_cases hkey : key ∈ keys
  · exact (hin key hkey).1
  · rw [hout key hkey]
    exact ht.cells key

/-- A command between `BeginStreamTx` and `End` keeps the store well formed.  Applied to a copy of
the store before the command, at any time, its records lead to the store after it, and leave it when
they are applied again later: exactly for changes replayable at both times. -/
theorem records_replay_iff {s s₁ s₂ : Store} (hs : s.Sound) {env : Env} {now : Int64}
    {keys : List Bytes} (hbegin : beginStreamTx env now keys s = (s₁, true)) {call : Call}
    {cmd : Command} (hkeys : ∀ key ∈ cmd.keys, key ∈ keys)
    (hrun : cmd.execute call s₁ = (.ok (), s₂)) {rs : List Record} (hrecords : records s₂ = some rs)
    {t : Store} (ht : t.Sound) (hcopy : ∀ key, (t.cell key).view = (s.cell key).view)
    {again again' : Call} (hspill : Spills call again) (hspill' : Spills call again') (env' : Env) :
    (endTx env' s₂).Sound ∧
    ((∃ t₁ t₂, applyRecords again.unlimited true rs t = (.ok (), t₁) ∧
      applyRecords again'.unlimited true rs t₁ = (.ok (), t₂) ∧
      ∀ key, (t₁.cell key).view = (s₂.cell key).view ∧ (t₂.cell key).view = (s₂.cell key).view) ↔
      ∀ key ∈ cmd.keys, Replayable again.now (s.cell key).view (s₂.cell key).view ∧
        Replayable again'.now (s.cell key).view (s₂.cell key).view) := by
  obtain ⟨_, htx₁, -, hmem₁, -, hbegun⟩ := beginStreamTx_spec hbegin
  obtain ⟨deltas, hdeltas, rfl⟩ := records_eq_some hrecords
  have hlive : ∀ key ∈ cmd.keys, ∀ slot, (s.cell key).slot = some slot →
      slot.expired call.now = false := by
    refine fun key hkey slot hslot => live_of_records hbegin hkeys hrun (fun k hk => ?_) hkey hslot
    rw [hdeltas k (by rw [execute_tx hrun, htx₁]; exact (hmem₁ k).2 hk)]
    simp
  obtain ⟨done, start, htx, hnodup, hmem, hout, hsame, hheld⟩ :=
    execute_watched hs hbegin hkeys hlive hrun
  refine ⟨execute_sound hs hbegin hkeys hlive hrun env', ?_⟩
  rw [htx, Option.getD_some] at hdeltas ⊢
  simp only [applyRecords_eq]
  -- what the record of each key does
  have hrestores : ∀ key ∈ done,
      Restores call (deltas key) (s.cell key).view (s₂.cell key).view ∧
        (key ∉ cmd.keys → deltas key = none) := by
    intro key hkey
    obtain ⟨hbegan, hkept⟩ := hheld key ((hmem key).1 hkey)
    refine ⟨restores_of_held hkept hbegan (hdeltas key hkey), fun hcmd => ?_⟩
    have hd := hdeltas key hkey
    rw [hout key hcmd, (delta_of_begun (hbegun key ((hmem key).1 hkey))).1] at hd
    exact (Option.some.inj hd).symm
  have hrest : ∀ key ∉ done, (s₂.cell key).view = (s.cell key).view := fun key hkey => by
    rw [hsame key fun h => hkey ((hmem key).2 h)]
  constructor
  · rintro ⟨t₁, t₂, hfirst, hsecond, hviews⟩ key hkey
    have hdone : key ∈ done := (hmem key).2 (hkeys key hkey)
    obtain ⟨hres, -⟩ := hrestores key hdone
    cases hd : deltas key with
    | none =>
      rw [hres.unchanged hd]
      exact ⟨replayable_self .., replayable_self ..⟩
    | some d =>
      have hrun₁ := ((eachKey_eq_ok hnodup).1 hfirst).2.2 key hdone
      have hrun₂ := ((eachKey_eq_ok hnodup).1 hsecond).2.2 key hdone
      rw [replayKey, hd] at hrun₁ hrun₂
      have honce := hres.sharp d hd again _ _ (ht.cells key) (hcopy key) hrun₁ (hviews key).1
      -- the copy behind the first replay is well formed
      obtain ⟨ct', hrun', hsound', -⟩ :=
        hres.replay d hd again hspill honce _ (ht.cells key) (.inl (hcopy key))
      obtain rfl : t₁.cell key = ct' := (Prod.mk.inj (hrun₁.symm.trans hrun')).2
      exact ⟨honce, hres.timely d hd _ honce again' _ _ hsound' (hviews key).1 hrun₂⟩
  · intro hreplayable
    -- a key that the command does not name has not changed
    have hall : ∀ key ∈ done, Replayable again.now (s.cell key).view (s₂.cell key).view ∧
        Replayable again'.now (s.cell key).view (s₂.cell key).view := by
      intro key hkey
      by_cases hcmd : key ∈ cmd.keys
      · exact hreplayable key hcmd
      · obtain ⟨hres, hnone⟩ := hrestores key hkey
        rw [hres.unchanged (hnone hcmd)]
        exact ⟨replayable_self .., replayable_self ..⟩
    have hrestores := fun key hkey => (hrestores key hkey).1
    obtain ⟨t₁, hfirst, ht₁, hin₁, hout₁, -⟩ := eachKey_replays hnodup hrestores hspill
      (fun key hkey => (hall key hkey).1) ht fun key _ => .inl (hcopy key)
    obtain ⟨t₂, hsecond, -, hin₂, hout₂, -⟩ := eachKey_replays hnodup hrestores hspill'
      (fun key hkey => (hall key hkey).2) ht₁ fun key hkey => .inr (hin₁ key hkey)
    refine ⟨t₁, t₂, hfirst, hsecond, fun key => ?_⟩
    by_cases hkey : key ∈ done
    · exact ⟨hin₁ key hkey, hin₂ key hkey⟩
    · rw [hout₂ key hkey, hout₁ key hkey, hcopy key, hrest key hkey]
      exact ⟨rfl, rfl⟩

/-! ## Examples of runs -/

/-- The store behind a command on the key `k` under a transaction. -/
def behind (cmd : Command) (s : Store) : Store :=
  (cmd.execute (freeCall 20) (beginStreamTx (freeCall 5).env 5 [[107]] s).1).2

/-- An entry appended to a stream with a deadline, from its records, twice before the deadline. -/
theorem records_replay_addOne :
    ∃ (rs : List Record) (t₁ t₂ : Store), records (behind addOne (emptyStreamAt 1000)) = some rs ∧
      applyRecords (freeCall 30).unlimited true rs (emptyStreamAt 1000) = (.ok (), t₁) ∧
      applyRecords (freeCall 400).unlimited true rs t₁ = (.ok (), t₂) ∧
      ∀ key, (t₁.cell key).view = ((behind addOne (emptyStreamAt 1000)).cell key).view ∧
        (t₂.cell key).view = ((behind addOne (emptyStreamAt 1000)).cell key).view := by
  have hbegin : beginStreamTx (freeCall 5).env 5 [[107]] (emptyStreamAt 1000) =
      ((beginStreamTx (freeCall 5).env 5 [[107]] (emptyStreamAt 1000)).1, true) :=
    Prod.ext rfl (by decide)
  have hrun : addOne.execute (freeCall 20)
      (beginStreamTx (freeCall 5).env 5 [[107]] (emptyStreamAt 1000)).1 =
        (.ok (), behind addOne (emptyStreamAt 1000)) := Prod.ext (by decide +kernel) rfl
  have hsome : (records (behind addOne (emptyStreamAt 1000))).isSome = true := by decide +kernel
  obtain ⟨rs, hrs⟩ := Option.isSome_iff_exists.1 hsome
  have hreplayable : ∀ now < 1000, ∀ key ∈ addOne.keys, Replayable now
      ((emptyStreamAt 1000).cell key).view
        ((behind addOne (emptyStreamAt 1000)).cell key).view := by
    intro now hnow key hkey
    rw [mem_singleton.1 hkey]
    have hbefore : ((emptyStreamAt 1000).cell [107]).view =
        .stream ⟨[], ⟨0, 0⟩, ⟨0, 0⟩, 0⟩ [] 1000 := by
      decide +kernel
    have hafter : ((behind addOne (emptyStreamAt 1000)).cell [107]).view =
        .stream ⟨[⟨⟨1, 1⟩, [⟨[102], [118]⟩]⟩], ⟨1, 1⟩, ⟨0, 0⟩, 1⟩ [] 1000 := by
      decide +kernel
    rw [hbefore, hafter]
    exact .inr ⟨rfl, by decide, by decide, .inr hnow⟩
  have hspill : ∀ now, Spills (freeCall 20) (freeCall now) := fun _ h => h
  obtain ⟨t₁, t₂, hfirst, hsecond, hviews⟩ := (records_replay_iff (emptyStreamAt_sound 1000) hbegin
    (fun key (hkey : key ∈ addOne.keys) => hkey) hrun hrs (emptyStreamAt_sound 1000)
    (fun _ => rfl) (hspill 30) (hspill 400) (freeCall 5).env).2.2 fun key hkey =>
      ⟨hreplayable 30 (by decide) key hkey, hreplayable 400 (by decide) key hkey⟩
  exact ⟨rs, t₁, t₂, hrs, hfirst, hsecond, hviews⟩

/-- XGROUP CREATE k "" 0-0 -/
def createUnnamed : Command := .one [107] (.groupCreate [] (.exact ⟨0, 0⟩) false (-1))

theorem refused_of_getD {s : Store} {cmd : Command} {again : Call}
    (hsome : (records (behind cmd s)).isSome = true)
    (hrefused : (applyRecords again.unlimited true ((records (behind cmd s)).getD []) s).1 =
      .error .badDelta) :
    ∃ rs, records (behind cmd s) = some rs ∧
      (applyRecords again.unlimited true rs s).1 = .error .badDelta := by
  obtain ⟨rs, hrs⟩ := Option.isSome_iff_exists.1 hsome
  rw [hrs, Option.getD_some] at hrefused
  exact ⟨rs, hrs, hrefused⟩

/-- The record of a group without a name is refused, and so is that of an entry when the deadline of
its stream has passed. -/
theorem records_replay_refused :
    ((emptyStreamAt 0).Sound ∧ ∃ rs : List Record,
      records (behind createUnnamed (emptyStreamAt 0)) = some rs ∧
      (applyRecords (freeCall 20).unlimited true rs (emptyStreamAt 0)).1 = .error .badDelta) ∧
    (emptyStreamAt 1000).Sound ∧ ∃ rs : List Record,
      records (behind addOne (emptyStreamAt 1000)) = some rs ∧
      (applyRecords (freeCall 2000).unlimited true rs (emptyStreamAt 1000)).1 =
        .error .badDelta := by
  refine ⟨⟨emptyStreamAt_sound 0, refused_of_getD ?_ ?_⟩, emptyStreamAt_sound 1000,
    refused_of_getD ?_ ?_⟩
  · decide +kernel
  · decide +kernel
  · decide +kernel
  · decide +kernel

end Stream
end SnugKV
