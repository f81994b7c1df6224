import SnugKV.Stream.BodyRefinement

/-!
# Journal — what a transaction notes about an entry log, and how it is undone

The journal of `engine/stream_tx.go` with `rollback` and `restoreSnapshot` of the entry log.  While
a transaction watches a log, the log notes the entries appended, how far it was trimmed and which
ids were deleted; and it keeps an append mark, or a snapshot, from which the earlier log can be
brought back.

* `Body.rollback`, `Body.restoreSnapshot`, `Body.undo` — going back;
* `Tracks` — the journal tells the log at the start from the log now, both ways;
* `tracks_append`, `tracks_trimFront`, `tracks_delete` — every mutation keeps this.
-/

namespace SnugKV
namespace Stream

open Lib List Journal

namespace Body

/-! ## Going back -/

def recountCapacity (b : Body) : Body := { b with dataCap := residentBytes b.chunks }

def restoreSnapshot (b : Body) (sn : Snapshot) : Body :=
  recountCapacity
    { b with
      chunks := sn.chunks
      length := sn.length
      dataBytes := sn.dataBytes
      lastID := sn.lastID
      maxDeletedID := sn.maxDeletedID
      entriesAdded := sn.entriesAdded }

/-- `c.data = c.data[:m.dataLen]` and the marked counters.  A spilled chunk has no buffer. -/
def cutBack (c : Chunk) : Nat × Nat × StreamID × StreamID × Nat → Option Chunk
  | (dataLen, count, first, last, lastOff) =>
    if (if c.spilled then 0 else c.data.length) < dataLen then none
    else
      some { c with
        data := if c.spilled then c.data else c.data.take dataLen
        count := count
        first := first
        last := last
        lastOff := lastOff }

def rollbackChunks (m : AppendMark) (chunks : List Chunk) : Option (List Chunk) :=
  match m.newest with
  | none => some (chunks.take m.chunks)
  | some newest => do
      let c ← chunks[m.chunks - 1]?
      let c ← cutBack c newest
      some ((chunks.take m.chunks).set (m.chunks - 1) c)

/-- `rollback`; cutting a chunk past its end is a panic. -/
def rollback (b : Body) (m : AppendMark) : Option Body :=
  (rollbackChunks m b.chunks).map fun chunks =>
    recountCapacity
      { b with
        chunks := chunks
        length := m.length
        dataBytes := m.bytes
        lastID := m.lastID
        maxDeletedID := m.maxDel
        entriesAdded := m.added }

/-- The snapshot first, then the mark, as `rollbackStreamItem` does. -/
def undo (b : Body) (j : Journal) : Option Body :=
  let b := match j.snap with
    | none => b
    | some sn => b.restoreSnapshot sn
  match j.mark with
  | none => some b
  | some m => b.rollback m

end Body

def Journal.touched (j : Journal) : Bool :=
  0 < j.appendedCount || j.through.isSome || !j.deleted.isEmpty

/-! ## Rolling back over appends -/

section Rollback

variable {b b' : Body} {env : Env} {e : StreamEntry}

theorem rollbackChunks_mark (b : Body) : Body.rollbackChunks b.mark b.chunks = some b.chunks := by
  rcases eq_nil_or_concat' b.chunks with hnil | ⟨init, c, hsplit⟩
  · simp [Body.rollbackChunks, Body.mark, hnil]
  · have hcut : Body.cutBack c
        (if c.spilled then 0 else c.data.length, c.count, c.first, c.last, c.lastOff) = some c := by
      cases c with
      | mk first last count head lastOff data cap spilled => cases spilled <;> simp [Body.cutBack]
    have hset : (init ++ [c]).set init.length c = init ++ [c] := by simp
    simp only [Body.rollbackChunks, Body.mark, hsplit, getLast?_append,
      getLast?_singleton, Option.some_or, Option.map_some, length_append,
      length_singleton, Nat.add_sub_cancel, getElem?_concat_length,
      some_bind, hcut]
    rw [take_of_length_le (by simp), hset]

/-- A mark of a log without chunks has no newest chunk, and the other way round. -/
def AppendMark.Coherent (m : AppendMark) : Prop := m.newest = none ↔ m.chunks = 0

theorem mark_coherent (b : Body) : b.mark.Coherent := by
  simp [AppendMark.Coherent, Body.mark]

/-- An append leaves the journal with its note and the counters as they were. -/
theorem append_noted (h : b.append env e = some b') :
    b'.SameCounters b ∧ b'.j = (b.noteAppend e).j := by
  obtain ⟨x, init, c, happ⟩ := append_eq env b e
  obtain ⟨hcounters, hj, -⟩ := spillCold_same env x
  rw [happ.run] at h
  cases h
  exact ⟨hcounters.trans happ.counters, hj.trans happ.j⟩

/-- The chunk keeps its bytes and may have more behind them. -/
structure Chunk.GrewTo (c c' : Chunk) : Prop where
  head : c'.head = c.head
  spilled : c'.spilled = c.spilled
  bytes : c'.data.take c.data.length = c.data
  frozen : c.spilled = true → c'.data = c.data

theorem sealChunk_grew (c : Chunk) : c.GrewTo (Body.sealChunk c) := by
  unfold Body.sealChunk
  split_ifs <;> exact ⟨rfl, rfl, take_length .., fun _ => rfl⟩

/-- While nothing spills, as under a journal, an append touches the newest chunk only. -/
theorem append_chunks (h : b.append env e = some b')
    (hstay : b.j.isSome = true ∨ env.spill = none) :
    b.chunks = [] ∨ ∃ init c c' rest, b.chunks = init ++ [c] ∧ b'.chunks = init ++ c' :: rest ∧
      c.GrewTo c' := by
  obtain ⟨x, init, c, happ⟩ := append_eq env b e
  have hspill : x.spillCold env = x := by
    unfold Body.spillCold
    split
    · rfl
    · next hlimit =>
        rcases hstay with hj | hnone
        · rw [if_pos (by simp [happ.j, Body.noteAppend, hj])]
        · rw [hnone] at hlimit
          cases hlimit
  rw [happ.run, hspill] at h
  cases h
  rw [happ.chunks]
  have hopens := happ.opens
  generalize b.chunks = chunks at hopens
  cases hopens with
  | first => exact .inl rfl
  | next init c =>
    exact .inr ⟨init, c, _, [_], rfl, by rw [append_assoc]; rfl, sealChunk_grew c⟩
  | same _ _ hwarm =>
    exact .inr ⟨init, c, _, [], rfl, rfl, rfl, rfl, take_left ..,
      fun h => absurd h (by simp [hwarm])⟩

theorem cutBack_of_grew {c c' c₁ : Chunk} (hgrew : c.GrewTo c')
    {newest : Nat × Nat × StreamID × StreamID × Nat} (h : Body.cutBack c newest = some c₁) :
    ∃ c₁', Body.cutBack c' newest = some c₁' ∧ c₁'.bare = c₁.bare := by
  obtain ⟨dataLen, count, first, last, lastOff⟩ := newest
  unfold Body.cutBack at h ⊢
  simp only [hgrew.spilled] at h ⊢
  cases hspilled : c.spilled with
  | true =>
    simp only [hspilled, if_true] at h ⊢
    split_ifs at h ⊢
    cases h
    exact ⟨_, rfl, by simp [Chunk.bare, hgrew.frozen hspilled, hgrew.head]⟩
  | false =>
    simp only [hspilled, Bool.false_eq_true, if_false] at h ⊢
    split_ifs at h with hlt
    cases h
    have hle : c.data.length ≤ c'.data.length := by
      have := congrArg length hgrew.bytes
      rw [length_take] at this
      omega
    have htake : c'.data.take dataLen = c.data.take dataLen := by
      rw [← hgrew.bytes, take_take, min_eq_left (by omega)]
    rw [if_neg (by omega)]
    exact ⟨_, rfl, by simp [Chunk.bare, htake, hgrew.head]⟩

/-- Rolling back reaches the same chunks from a log that was appended to. -/
theorem rollbackChunks_append {m : AppendMark} (h : b.append env e = some b')
    (hj : b.j.isSome = true) (hm : m.Coherent) {chunks : List Chunk}
    (hback : Body.rollbackChunks m b.chunks = some chunks) :
    ∃ chunks', Body.rollbackChunks m b'.chunks = some chunks' ∧
      chunks'.map Chunk.bare = chunks.map Chunk.bare := by
  unfold Body.rollbackChunks at hback ⊢
  rcases hnewest : m.newest with - | newest
  · have hzero := hm.1 hnewest
    simp only [hnewest, hzero, take_zero, Option.some.injEq] at hback ⊢
    exact ⟨[], rfl, by rw [← hback]⟩
  · have hpos : 0 < m.chunks := Nat.pos_of_ne_zero fun hzero => by
      rw [hm.2 hzero] at hnewest
      cases hnewest
    obtain ⟨k, hk⟩ : ∃ k, m.chunks = k + 1 := ⟨m.chunks - 1, by omega⟩
    simp only [hnewest, hk, Nat.add_sub_cancel, Option.bind_eq_bind] at hback ⊢
    obtain ⟨c₀, hget, hback⟩ := Option.bind_eq_some_iff.1 hback
    obtain ⟨c₁, hcut, hback⟩ := Option.bind_eq_some_iff.1 hback
    cases hback
    rcases append_chunks h (.inl hj) with hnil | ⟨init, c, c', rest, hsplit, hsplit', hgrew⟩
    · simp [hnil] at hget
    · rw [hsplit] at hget ⊢
      rw [hsplit']
      have hlt := (List.getElem?_eq_some_iff.1 hget).1
      rw [List.length_append, List.length_singleton] at hlt
      rcases Nat.lt_succ_iff_lt_or_eq.1 hlt with hlt | rfl
      · -- the marked chunk stands before the newest one
        rw [getElem?_append_left hlt] at hget ⊢
        rw [hget, take_append_of_le_length hlt, take_append_of_le_length hlt]
        simp only [Option.bind_some, hcut]
        exact ⟨_, rfl, rfl⟩
      · rw [getElem?_concat_length] at hget
        cases hget
        obtain ⟨c₁', hcut', hbare⟩ := cutBack_of_grew hgrew hcut
        have hget' : (init ++ c' :: rest)[init.length]? = some c' := by simp
        have htake : (init ++ c' :: rest).take (init.length + 1) = init ++ [c'] := by
          rw [take_append]
          simp
        rw [hget', htake, take_of_length_le (by simp)]
        simp only [Option.bind_some, hcut']
        exact ⟨_, rfl, by simp [hbare]⟩

end Rollback

/-! ## What a log shows -/

/-- The entries and counters of a stream, as a reader sees them. -/
structure Log where
  entries : List StreamEntry
  lastID : StreamID
  maxDeletedID : StreamID
  entriesAdded : Nat
  deriving DecidableEq, Repr

structure Body.Shows (b : Body) (l : Log) : Prop where
  is : b.Is l.entries
  lastID : b.lastID = l.lastID
  maxDeletedID : b.maxDeletedID = l.maxDeletedID
  entriesAdded : b.entriesAdded = l.entriesAdded

/-- `syncLog`. -/
def Body.syncLog (b : Body) (lastID maxDeletedID : StreamID) (entriesAdded : Nat) : Body :=
  { b with lastID := lastID, maxDeletedID := maxDeletedID, entriesAdded := entriesAdded }

theorem Body.Shows.congr {b b' : Body} {l : Log} (h : b.Shows l) (hchunks : b'.chunks = b.chunks)
    (hlength : b'.length = b.length) (hbytes : b'.dataBytes = b.dataBytes)
    (hcounters : b'.SameCounters b) : b'.Shows l where
  is := h.is.of_bare (by rw [hchunks]) hlength hbytes
  lastID := hcounters.lastID.trans h.lastID
  maxDeletedID := hcounters.maxDeletedID.trans h.maxDeletedID
  entriesAdded := hcounters.entriesAdded.trans h.entriesAdded

/-- The log can be brought back to `l`. -/
def Body.Undoes (b : Body) (j : Journal) (l : Log) : Prop :=
  ∃ b₀, b.undo j = some b₀ ∧ b₀.Shows l

section Undo

variable {b : Body} {j j' : Journal} {l : Log}

/-- Rolling back looks at the chunks only. -/
theorem rollback_shows {m : AppendMark} (b' : Body) {b₀ : Body} (h : b.rollback m = some b₀)
    (hshows : b₀.Shows l)
    (hback : ∀ chunks, Body.rollbackChunks m b.chunks = some chunks →
      ∃ chunks', Body.rollbackChunks m b'.chunks = some chunks' ∧
        chunks'.map Chunk.bare = chunks.map Chunk.bare) :
    ∃ b₁, b'.rollback m = some b₁ ∧ b₁.Shows l := by
  unfold Body.rollback at h ⊢
  obtain ⟨chunks, hchunks, rfl⟩ := Option.map_eq_some_iff.1 h
  obtain ⟨chunks', hchunks', hbare⟩ := hback chunks hchunks
  rw [hchunks']
  exact ⟨_, rfl, hshows.is.of_bare hbare rfl rfl, hshows.lastID, hshows.maxDeletedID,
    hshows.entriesAdded⟩

theorem rollback_mark (b : Body) : b.rollback b.mark = some b.recountCapacity := by
  rw [Body.rollback, rollbackChunks_mark]
  rfl

/-- What is undone first: the snapshot, if there is one. -/
def Body.restored (b : Body) (j : Journal) : Body :=
  match j.snap with
  | none => b
  | some sn => b.restoreSnapshot sn

/-- The way back looks at the chunks and counters of what is undone first. -/
theorem undoes_of_restored (h : b.Undoes j l) {b' : Body} (hmark : j'.mark = j.mark)
    (hchunks : (b'.restored j').chunks = (b.restored j).chunks)
    (hlength : (b'.restored j').length = (b.restored j).length)
    (hbytes : (b'.restored j').dataBytes = (b.restored j).dataBytes)
    (hcounters : (b'.restored j').SameCounters (b.restored j)) : b'.Undoes j' l := by
  obtain ⟨b₀, hundo, hshows⟩ := h
  change ∃ b₀, (match j'.mark with
    | none => some (b'.restored j')
    | some m => (b'.restored j').rollback m) = some b₀ ∧ b₀.Shows l
  change (match j.mark with
    | none => some (b.restored j)
    | some m => (b.restored j).rollback m) = some b₀ at hundo
  rw [hmark]
  cases hm : j.mark with
  | none =>
    rw [hm] at hundo
    cases hundo
    exact ⟨_, rfl, hshows.congr hchunks hlength hbytes hcounters⟩
  | some m =>
    rw [hm] at hundo
    exact rollback_shows _ hundo hshows fun chunks hback => ⟨chunks, hchunks ▸ hback, rfl⟩

/-- With a snapshot the way back does not depend on the log any more. -/
theorem undoes_of_snap {sn : Snapshot} (hsnap : j.snap = some sn) (h : b.Undoes j l) (b' : Body)
    (hsnap' : j'.snap = j.snap) (hmark : j'.mark = j.mark) : b'.Undoes j' l := by
  refine undoes_of_restored h hmark ?_ ?_ ?_ ?_ <;>
    simp only [Body.restored, hsnap, hsnap', Body.restoreSnapshot, Body.recountCapacity]
  exact ⟨rfl, rfl, rfl⟩

/-- Taking a snapshot keeps the way back. -/
theorem undoes_beforeDestructive (h : b.Undoes j l) (b' : Body)
    (hsnap : j'.snap = if j.snap.isNone then some b.snapshot else j.snap)
    (hmark : j'.mark = j.mark) : b'.Undoes j' l := by
  cases hsn : j.snap with
  | some sn => exact undoes_of_snap hsn h b' (by rw [hsnap, hsn]; rfl) hmark
  | none =>
    refine undoes_of_restored h hmark ?_ ?_ ?_ ?_ <;> simp only [Body.restored, hsn, hsnap]
    exacts [rfl, rfl, rfl, ⟨rfl, rfl, rfl⟩]

/-- So does an append: the mark taken at the first one covers it. -/
theorem undoes_append {b' : Body} {env : Env} {e : StreamEntry} (h : b.Undoes j l)
    (hj : b.j.isSome = true) (happ : b.append env e = some b')
    (hcoherent : ∀ m, j.mark = some m → m.Coherent) (hsnap : j'.snap = j.snap)
    (hmark : j'.mark = if j.mark.isNone && j.snap.isNone then some b.mark else j.mark)
    (lastID maxDeletedID : StreamID) (entriesAdded : Nat) :
    (b'.syncLog lastID maxDeletedID entriesAdded).Undoes j' l := by
  cases hsn : j.snap with
  | some sn =>
    refine undoes_of_snap hsn h _ hsnap ?_
    rw [hmark, hsn]
    simp
  | none =>
    rcases h with ⟨b₀, hundo, hshows⟩
    rw [hsn] at hsnap hmark
    unfold Body.Undoes Body.undo at *
    cases hm : j.mark with
    | none =>
      simp only [hsn, hm, Option.some.injEq] at hundo
      simp only [hsnap, hmark, hm, Option.isNone_none, Bool.and_self, if_true]
      -- the mark of the log as it was
      subst hundo
      exact rollback_shows _ (rollback_mark b) (hshows.congr rfl rfl rfl ⟨rfl, rfl, rfl⟩)
        fun chunks hchunks => rollbackChunks_append happ hj (mark_coherent b) hchunks
    | some m =>
      simp only [hsn, hm] at hundo
      simp only [hsnap, hmark, hm, Option.isNone_some, Bool.false_and, Bool.false_eq_true, if_false]
      exact rollback_shows _ hundo hshows fun chunks hchunks =>
        rollbackChunks_append happ hj (hcoherent m hm) hchunks

end Undo

/-! ## The journal describes the change -/

/-- Neither trimmed nor deleted since the transaction began. -/
def Journal.keeps (j : Journal) (id : StreamID) : Bool :=
  (j.through.all fun through => decide (through < id)) && decide (id ∉ j.deleted)

/-- The log showed `l₀` when the journal `j` was attached, and shows `l` now; `added` are the
entries appended since. -/
structure Tracks (b : Body) (j : Journal) (l₀ l : Log) (added : List StreamEntry) : Prop where
  attached : b.j = some j
  shows : b.Shows l
  back : b.Undoes j l₀
  coherent : ∀ m, j.mark = some m → m.Coherent
  untouched : j.touched = false → l = l₀
  appended : j.appended = entriesBytes added
  count : j.appendedCount = added.length
  entries : l.entries = (l₀.entries ++ added).filter fun e => j.keeps e.id
  ascending : Ascending (l₀.entries ++ added)
  fresh : ∀ e ∈ added, l₀.lastID < e.id ∧ e.id ≤ l.lastID ∧ e.Fits ∧ e.fields ≠ []
  bounded : ∀ e ∈ l₀.entries, e.id ≤ l₀.lastID
  lastID : l₀.lastID ≤ l.lastID
  maxDeletedID : l₀.maxDeletedID ≤ l.maxDeletedID
  through : ∀ id, j.through = some id → ∃ e ∈ l₀.entries ++ added, e.id = id
  deleted : ∀ id ∈ j.deleted, ∃ e ∈ l₀.entries ++ added, e.id = id

theorem tracks_begin {b : Body} {l : Log} (h : b.Shows l) (hasc : Ascending l.entries)
    (hbounded : ∀ e ∈ l.entries, e.id ≤ l.lastID) :
    Tracks { b with j := some {} } {} l l [] where
  attached := rfl
  shows := h.congr rfl rfl rfl ⟨rfl, rfl, rfl⟩
  back := ⟨_, rfl, h.congr rfl rfl rfl ⟨rfl, rfl, rfl⟩⟩
  coherent := by intro m hm; cases hm
  untouched := fun _ => rfl
  appended := rfl
  count := rfl
  entries := by simp [keeps]
  ascending := by simpa using hasc
  fresh := by simp
  bounded := hbounded
  lastID := le_refl _
  maxDeletedID := le_refl _
  through := by intro id hid; cases hid
  deleted := by simp

section Steps

variable {b b' : Body} {j : Journal} {l₀ l : Log} {added : List StreamEntry}

namespace Tracks

section

variable (h : Tracks b j l₀ l added) {e : StreamEntry} {id : StreamID}

include h

theorem le_lastID (he : e ∈ l₀.entries ++ added) : e.id ≤ l.lastID := by
  rcases mem_append.1 he with he | he
  · exact le_trans (h.bounded e he) h.lastID
  · exact (h.fresh e he).2.1

theorem through_le (hid : j.through = some id) : id ≤ l.lastID := by
  obtain ⟨e, he, rfl⟩ := h.through id hid
  exact h.le_lastID he

theorem deleted_le (hid : id ∈ j.deleted) : id ≤ l.lastID := by
  obtain ⟨e, he, rfl⟩ := h.deleted id hid
  exact h.le_lastID he

theorem mem_of_mem_entries (he : e ∈ l.entries) : e ∈ l₀.entries ++ added := by
  rw [h.entries] at he
  exact mem_of_mem_filter he

/-- A journal with notes is that of a log that changed. -/
theorem ne_of_touched (htouched : j.touched = true) : l ≠ l₀ := by
  rintro rfl
  have hnil : added = [] := by
    refine eq_nil_iff_forall_not_mem.2 fun e he => ?_
    exact absurd (h.fresh e he).2.1 (not_le.2 (h.fresh e he).1)
  subst hnil
  -- nothing was appended, so every entry is there still
  have hkept : ∀ e ∈ l.entries, j.keeps e.id = true := by
    have hentries := h.entries
    rw [append_nil] at hentries
    exact filter_eq_self.1 hentries.symm
  have hgone : ∀ id, (∃ e ∈ l.entries ++ [], e.id = id) → j.keeps id = true := by
    rintro id ⟨e, he, rfl⟩
    exact hkept e (by simpa using he)
  simp only [touched, h.count, length_nil, lt_irrefl, decide_false, Bool.false_or,
    Bool.or_eq_true, Bool.not_eq_true', isEmpty_eq_false_iff] at htouched
  rcases htouched with hthrough | hdeleted
  · obtain ⟨id, hid⟩ := Option.isSome_iff_exists.1 hthrough
    have := hgone id (h.through id hid)
    simp [keeps, hid] at this
  · obtain ⟨id, hid⟩ := exists_mem_of_ne_nil _ hdeleted
    have := hgone id (h.deleted id hid)
    simp [keeps, hid] at this

end

end Tracks

/-- `Append` with the counters `StreamAdd` sets behind it. -/
theorem tracks_append (h : Tracks b j l₀ l added) (env : Env) {e : StreamEntry} (hfits : e.Fits)
    (hfields : e.fields ≠ []) (hlt : l.lastID < e.id) (n : Nat) :
    ∃ b' j', b.append env e = some b' ∧
      Tracks (b'.syncLog e.id l.maxDeletedID n) j' l₀
        ⟨l.entries ++ [e], e.id, l.maxDeletedID, n⟩ (added ++ [e]) := by
  obtain ⟨b', happ, his⟩ := append_is env h.shows.is hfits fun x hx =>
    lt_of_le_of_lt (h.le_lastID (h.mem_of_mem_entries hx)) hlt
  obtain ⟨-, hj⟩ := append_noted happ
  have hsome : b.j.isSome = true := by rw [h.attached]; rfl
  rw [Body.noteAppend, h.attached] at hj
  -- a new id lies behind everything that was trimmed or deleted
  have hkeeps : j.keeps e.id = true := by
    simp only [keeps, Bool.and_eq_true, decide_eq_true_eq]
    refine ⟨?_, fun hmem => absurd (h.deleted_le hmem) (not_le.2 hlt)⟩
    cases ht : j.through with
    | none => rfl
    | some through => simpa using lt_of_le_of_lt (h.through_le ht) hlt
  have hle : ∀ id, id ≤ l.lastID → id ≤ e.id := fun id hid => le_of_lt (lt_of_le_of_lt hid hlt)
  have hmore : ∀ {id : StreamID}, (∃ x ∈ l₀.entries ++ added, x.id = id) →
      ∃ x ∈ l₀.entries ++ (added ++ [e]), x.id = id := by
    rintro id ⟨x, hx, rfl⟩
    exact ⟨x, append_assoc .. ▸ mem_append_left _ hx, rfl⟩
  refine ⟨b', { j with
      mark := if j.mark.isNone && j.snap.isNone then some b.mark else j.mark
      appended := j.appended ++ entryBytes e
      appendedCount := j.appendedCount + 1 }, happ, ?_⟩
  exact { h with
    attached := hj
    shows := ⟨his.of_bare rfl rfl rfl, rfl, rfl, rfl⟩
    back := by refine undoes_append h.back hsome happ h.coherent ?_ ?_ _ _ _ <;> rfl
    coherent := by
      intro m hm
      split_ifs at hm
      · cases hm
        exact mark_coherent b
      · exact h.coherent m hm
    untouched := by simp [touched]
    appended := by simp [h.appended, entriesBytes]
    count := by simp [h.count]
    entries := by
      change l.entries ++ [e] = (l₀.entries ++ (added ++ [e])).filter fun x => j.keeps x.id
      rw [← append_assoc, filter_append, ← h.entries]
      simp [hkeeps]
    ascending := by
      rw [← append_assoc]
      refine pairwise_append.2 ⟨h.ascending, by simp, ?_⟩
      intro x hx y hy
      rw [mem_singleton.1 hy]
      exact lt_of_le_of_lt (h.le_lastID hx) hlt
    fresh := by
      refine forall_mem_append.2 ⟨fun x hx => ?_, forall_mem_singleton.2
        ⟨lt_of_le_of_lt h.lastID hlt, le_refl _, hfits, hfields⟩⟩
      obtain ⟨h₁, h₂, h₃, h₄⟩ := h.fresh x hx
      exact ⟨h₁, hle _ h₂, h₃, h₄⟩
    lastID := hle _ h.lastID
    through := fun id hid => hmore (h.through id hid)
    deleted := fun id hid => hmore (h.deleted id hid) }

variable {es : List StreamEntry} {n : Nat}

theorem lastOfFirst_split (hn : 0 < n) (hne : es ≠ []) :
    ∃ init x, es.take n = init ++ [x] ∧ lastOfFirst es n = x.id := by
  have htake : es.take n ≠ [] := by
    cases es with
    | nil => exact absurd rfl hne
    | cons e es => cases n <;> simp at hn ⊢
  obtain ⟨init, x, hx⟩ := (eq_nil_or_concat' (es.take n)).resolve_left htake
  exact ⟨init, x, hx, by simp [lastOfFirst, hx]⟩

theorem lastOfFirst_mem (hn : 0 < n) (hne : es ≠ []) : ∃ e ∈ es, e.id = lastOfFirst es n := by
  obtain ⟨init, x, hx, hlast⟩ := lastOfFirst_split hn hne
  refine ⟨x, (take_sublist n es).subset ?_, hlast.symm⟩
  simp [hx]

/-- Behind the last of the first `n` entries stand the others. -/
theorem drop_eq_filter (hasc : Ascending es) (hn : 0 < n) (hne : es ≠ []) :
    es.drop n = es.filter (fun e => decide (lastOfFirst es n < e.id)) := by
  obtain ⟨init, x, hx, hlast⟩ := lastOfFirst_split hn hne
  have hsplit : es = (init ++ [x]) ++ es.drop n := by rw [← hx, take_append_drop]
  have hpair := hasc
  rw [Ascending, hsplit] at hpair
  obtain ⟨hfront, -, hcross⟩ := pairwise_append.1 hpair
  have hgone : (init ++ [x]).filter (fun e => decide (x.id < e.id)) = [] := by
    refine filter_eq_nil_iff.2 fun y hy => ?_
    rcases mem_append.1 hy with hy | hy
    · have := (pairwise_append.1 hfront).2.2 y hy x (by simp)
      simpa using le_of_lt this
    · rw [mem_singleton.1 hy]
      simp
  have hkept : (es.drop n).filter (fun e => decide (x.id < e.id)) = es.drop n := by
    refine filter_eq_self.2 fun y hy => ?_
    simpa using hcross x (by simp) y hy
  rw [hlast]
  conv_rhs => rw [hsplit, filter_append, hgone, hkept, nil_append]

/-- The greater of what was noted and `id`. -/
def laterThrough (through : Option StreamID) (id : StreamID) : StreamID :=
  match through with
  | none => id
  | some old => if old.less id then id else old

theorem laterThrough_lt {through : Option StreamID} {id x : StreamID} :
    laterThrough through id < x ↔ (through.all fun old => decide (old < x)) = true ∧ id < x := by
  cases through with
  | none => simp [laterThrough]
  | some old =>
    simp only [laterThrough, StreamID.less_eq_decide, decide_eq_true_eq, Option.all_some]
    split_ifs with hlt
    · exact ⟨fun h => ⟨lt_trans hlt h, h⟩, fun h => h.2⟩
    · exact ⟨fun h => ⟨h, lt_of_le_of_lt (not_lt.1 hlt) h⟩, fun h => h.1⟩

theorem trimFront_idle (h : b.Is es) {n : Int} (hidle : ¬ (0 < n ∧ 0 < es.length)) :
    b.trimFront n = some (b, 0) := by
  rcases h with ⟨cs, hcs, rfl⟩
  rw [← hcs.length] at hidle
  have hloop : ∀ t : Body.Trim, t.n = n.toNat →
      Body.trimChunks b.chunks t = some (b.chunks, t) := by
    intro t ht
    cases hchunks : b.chunks with
    | nil => rfl
    | cons c chunks =>
      -- a chunk holds entries, so `n` is not positive
      have hpos : 0 < b.length := by
        rw [hcs.length]
        have hmap := hcs.chunks
        rw [hchunks] at hmap
        obtain ⟨p, rest, rfl, -, -⟩ := map_eq_cons_iff.1 hmap.symm
        have hne := (hcs.holds p (by simp)).nonempty
        rw [flatMap_cons, length_append]
        have := length_pos_of_ne_nil hne
        omega
      rw [Body.trimChunks, if_pos (by omega)]
  rw [Body.trimFront, if_neg hidle]
  simp [hloop, Body.trimmed]

theorem tracks_trimFront (h : Tracks b j l₀ l added) (n : Int) :
    ∃ b' j', b.trimFront n = some (b', min n.toNat l.entries.length) ∧
      Tracks b' j' l₀ { l with entries := l.entries.drop n.toNat } added := by
  obtain ⟨b', htrim, his, hcounters, hj⟩ := trimFront_spec h.shows.is n
  have hshows : b'.Shows { l with entries := l.entries.drop n.toNat } :=
    ⟨his, hcounters.lastID.trans h.shows.lastID,
      hcounters.maxDeletedID.trans h.shows.maxDeletedID,
      hcounters.entriesAdded.trans h.shows.entriesAdded⟩
  by_cases hsome : 0 < n ∧ 0 < l.entries.length
  · have hn : 0 < n.toNat := by omega
    have hne : l.entries ≠ [] := ne_nil_of_length_pos hsome.2
    obtain ⟨x, hx, hgone⟩ := lastOfFirst_mem hn hne
    generalize hid : lastOfFirst l.entries n.toNat = id at hj hgone
    rw [if_pos hsome] at hj
    refine ⟨b', { j with
      snap := if j.snap.isNone then some b.snapshot else j.snap
      through := some (laterThrough j.through id) }, htrim, ?_⟩
    exact { h with
      attached := by
        rw [hj]
        simp only [Body.noteThrough, Body.beforeDestructive, h.attached, Option.map_some,
          Option.some.injEq, mk.injEq, true_and, and_true, laterThrough]
        cases j.through with
        | none => rfl
        | some old =>
          change (if old.less id then some id else some old) =
            some (if old.less id then id else old)
          split_ifs <;> rfl
      shows := hshows
      back := undoes_beforeDestructive h.back b' rfl rfl
      untouched := by simp [touched]
      entries := by
        have hascending := h.ascending.sublist (filter_sublist (p := fun e => j.keeps e.id))
        rw [← h.entries] at hascending
        rw [drop_eq_filter hascending hn hne, hid, h.entries, filter_filter]
        refine filter_congr fun e _ => ?_
        rw [Bool.eq_iff_iff]
        simp only [keeps, Option.all_some, laterThrough_lt, Bool.and_eq_true,
          decide_eq_true_eq]
        tauto
      through := by
        intro t ht
        simp only [Option.some.injEq] at ht
        subst ht
        have hmem : ∃ e ∈ l₀.entries ++ added, e.id = id := ⟨x, h.mem_of_mem_entries hx, hgone⟩
        unfold laterThrough
        split
        · exact hmem
        · next old hold =>
            split_ifs
            · exact hmem
            · exact h.through old hold }
  · -- nothing to drop, nothing noted
    have hidle := trimFront_idle h.shows.is hsome
    have hsame : l.entries.drop n.toNat = l.entries := by
      by_cases hn : 0 < n
      · have hnil : l.entries = [] := eq_nil_of_length_eq_zero (by omega)
        simp [hnil]
      · rw [show n.toNat = 0 by omega, drop_zero]
    exact ⟨b, j, by rw [hidle, show min n.toNat l.entries.length = 0 by omega],
      by rw [hsame]; exact h⟩

/-- `Delete` with the counter of deleted ids its callers move behind it. -/
theorem tracks_delete (h : Tracks b j l₀ l added) (ids : List StreamID) {maxDeletedID : StreamID}
    (hle : l.maxDeletedID ≤ maxDeletedID)
    (hmoved : maxDeletedID = l.maxDeletedID ∨ ∃ e ∈ l.entries, e.id ∈ ids) :
    ∃ b' j', b.delete ids =
        some (b', (l.entries.filter fun e => decide (e.id ∈ ids)).length) ∧
      Tracks (b'.syncLog l.lastID maxDeletedID l.entriesAdded) j' l₀
        ⟨l.entries.filter fun e => !decide (e.id ∈ ids), l.lastID, maxDeletedID,
          l.entriesAdded⟩ added := by
  obtain ⟨b', hdel, his, gone, hnoted, hmem⟩ := delete_spec h.shows.is ids
  have hgone : ∀ id, id ∈ gone ↔ ∃ e ∈ l.entries, e.id ∈ ids ∧ e.id = id := by
    intro id
    simp only [hmem, mem_map, mem_filter, decide_eq_true_eq, and_assoc]
  -- what the log shows when no entry goes
  have hnone : (∀ e ∈ l.entries, e.id ∉ ids) →
      (⟨l.entries.filter fun e => !decide (e.id ∈ ids), l.lastID, maxDeletedID,
        l.entriesAdded⟩ : Log) = l := by
    intro hall
    have hmax : maxDeletedID = l.maxDeletedID := by
      rcases hmoved with hmax | ⟨e, he, hid⟩
      · exact hmax
      · exact absurd hid (hall e he)
    rw [hmax, filter_eq_self.2 (by simpa using hall)]
  by_cases hidle : (ids.isEmpty || decide (b.length = 0)) = true
  · have hb' : b' = b := by
      rw [Body.delete, if_pos (by simpa using hidle)] at hdel
      exact (Prod.mk.inj (Option.some.inj hdel)).1.symm
    have hall : ∀ e ∈ l.entries, e.id ∉ ids := by
      intro e he hid
      rcases Bool.or_eq_true _ _ ▸ hidle with hids | hlen
      · rw [isEmpty_iff.1 hids] at hid
        cases hid
      · rw [decide_eq_true_eq, h.shows.is.agrees.length] at hlen
        rw [eq_nil_of_length_eq_zero hlen] at he
        cases he
    have hlog := hnone hall
    have hsync : b'.syncLog l.lastID maxDeletedID l.entriesAdded = b := by
      rw [hb', ← h.shows.lastID, ← h.shows.entriesAdded,
        show maxDeletedID = l.maxDeletedID from congrArg Log.maxDeletedID hlog,
        ← h.shows.maxDeletedID]
      rfl
    exact ⟨b', j, hdel, by rw [hsync, hlog]; exact h⟩
  · rw [if_neg (by simpa using hidle)] at hnoted
    refine ⟨b', { j with
      snap := if j.snap.isNone then some b.snapshot else j.snap
      deleted := j.deleted ++ gone }, hdel, ?_⟩
    exact { h with
      attached := by
        change b'.j = _
        rw [hnoted.j, Body.noteDeleted, Body.beforeDestructive, h.attached]
        rfl
      shows := ⟨his.of_bare rfl rfl rfl, rfl, rfl, rfl⟩
      back := undoes_beforeDestructive h.back _ rfl rfl
      untouched := by
        intro htouched
        simp only [touched, Bool.or_eq_false_iff, Bool.not_eq_false',
          List.isEmpty_iff, List.append_eq_nil_iff] at htouched
        obtain ⟨⟨hcount, hthrough⟩, hdeleted, hnil⟩ := htouched
        rw [hnone fun e he hid => by
          have : e.id ∈ gone := (hgone e.id).2 ⟨e, he, hid, rfl⟩
          rw [hnil] at this
          cases this]
        exact h.untouched (by simp [touched, hcount, hthrough, hdeleted])
      entries := by
        simp only
        rw [h.entries, filter_filter]
        refine filter_congr fun e he => ?_
        rw [Bool.eq_iff_iff]
        have hin : j.keeps e.id = true → e ∈ l.entries := fun hk => by
          rw [h.entries]
          exact mem_filter.2 ⟨he, hk⟩
        have hsub : e.id ∈ gone → e.id ∈ ids := fun hid => by
          obtain ⟨x, -, hx, hxe⟩ := (hgone e.id).1 hid
          exact hxe ▸ hx
        have hsup : j.keeps e.id = true → e.id ∈ ids → e.id ∈ gone := fun hk hid =>
          (hgone e.id).2 ⟨e, hin hk, hid, rfl⟩
        simp only [keeps, Bool.and_eq_true, Bool.not_eq_true', decide_eq_true_eq,
          decide_eq_false_iff_not, mem_append, not_or] at hsup ⊢
        tauto
      maxDeletedID := le_trans h.maxDeletedID hle
      deleted := by
        intro id hid
        rcases mem_append.1 hid with hid | hid
        · exact h.deleted id hid
        · obtain ⟨e, he, -, rfl⟩ := (hgone id).1 hid
          exact ⟨e, h.mem_of_mem_entries he, rfl⟩ }

end Steps

/-! ## A refused append -/

section Refused

variable {b b' : Body} {env : Env} {e : StreamEntry} {l : Log}

/-- An append is an append without a spill directory, and then the spill. -/
theorem append_eq_spillCold (h : b.append env e = some b') :
    ∃ b₁, b.append { env with spill := none } e = some b₁ ∧ b' = b₁.spillCold env := by
  rcases hlast : ((b.noteAppend e).openChunk e.id (streamEntrySize e.fields)).chunks.getLast?
    with - | c
  · simp [Body.append, hlast] at h
  · simp only [Body.append, hlast, Option.some.injEq] at h ⊢
    exact ⟨_, rfl, h.symm⟩

theorem cutBack_mark {c c' c'' c₁ : Chunk} {es : List StreamEntry} (hholds : c.Holds es)
    (hgrew : c.GrewTo c') (hchilled : c'.ChilledTo c'')
    (hcut : Body.cutBack c''
      (if c.spilled then 0 else c.data.length, c.count, c.first, c.last, c.lastOff) = some c₁) :
    c₁.text = c.text := by
  rcases hchilled with rfl | ⟨hwarm, -, rfl⟩
  · cases hspilled : c.spilled with
    | true =>
      have hcold : c''.spilled = true := hgrew.spilled.trans hspilled
      simp only [Body.cutBack, hspilled, hcold, if_true, lt_irrefl, if_false,
        Option.some.injEq] at hcut
      rw [← hcut]
      simp [Chunk.text, hgrew.frozen hspilled, hgrew.head]
    | false =>
      have hwarm : c''.spilled = false := hgrew.spilled.trans hspilled
      simp only [Body.cutBack, hspilled, hwarm, Bool.false_eq_true, if_false] at hcut
      split_ifs at hcut
      cases hcut
      simp [Chunk.text, hgrew.bytes, hgrew.head]
  · -- the marked chunk was resident and has bytes, so its buffer is gone
    have hwarm' : c.spilled = false := hgrew.spilled.symm.trans hwarm
    have hpos : 0 < c.data.length := by
      obtain ⟨dead, hdata, -⟩ := hholds.bytes
      obtain ⟨x, xs, hxs⟩ := exists_cons_of_ne_nil hholds.nonempty
      rw [hdata, hxs]
      simp only [entriesBytes, flatMap_cons, entryBytes, length_append, length_idBytes]
      omega
    simp [Body.cutBack, hwarm', hpos] at hcut

/-- Rolling back over an append outside a transaction, where it does not panic. -/
theorem rollback_append (hshows : b.Shows l) (h : b.append env e = some b') {x b₀ : Body}
    (hchunks : x.chunks = b'.chunks) (hback : x.rollback b.mark = some b₀) : b₀.Shows l := by
  obtain ⟨b₁, happ, rfl⟩ := append_eq_spillCold h
  have hchilled := spillCold_chilled env b₁
  obtain ⟨chunks, hcut, rfl⟩ := Option.map_eq_some_iff.1 hback
  suffices htext : chunks.map Chunk.text = b.chunks.map Chunk.text from
    ⟨hshows.is.of_text htext rfl rfl, hshows.lastID, hshows.maxDeletedID, hshows.entriesAdded⟩
  rw [hchunks] at hcut
  rcases append_chunks happ (.inr rfl) with hnil | ⟨init, c, c', rest, hsplit, hsplit', hgrew⟩
  · have hnone : chunks = [] := by
      simpa [Body.rollbackChunks, Body.mark, hnil] using hcut.symm
    rw [hnone, hnil]
  · obtain ⟨cs, hcs, -⟩ := hshows.is
    obtain ⟨es, hholds⟩ : ∃ es, c.Holds es := by
      have hmem : c ∈ cs.map Prod.fst := by rw [← hcs.chunks, hsplit]; simp
      obtain ⟨q, hq, rfl⟩ := mem_map.1 hmem
      exact ⟨q.2, hcs.holds q hq⟩
    rw [hsplit'] at hchilled
    generalize (b₁.spillCold env).chunks = ys at hchilled hcut
    simp only [Body.rollbackChunks, Body.mark, hsplit, getLast?_append,
      getLast?_singleton, Option.some_or, Option.map_some, length_append,
      length_singleton, Nat.add_sub_cancel] at hcut
    obtain ⟨c₀, hget, hcut⟩ := Option.bind_eq_some_iff.1 hcut
    obtain ⟨c₁, hc₁, hcut⟩ := Option.bind_eq_some_iff.1 hcut
    cases hcut
    -- the chunks before the marked one, and the marked one
    have hinit : (ys.take init.length).map Chunk.text = init.map Chunk.text := by
      have hrel := List.forall₂_take init.length hchilled
      rw [take_left] at hrel
      exact map_text_of_chilled hrel
    have hnewest : c'.ChilledTo c₀ := by
      have hrel := List.forall₂_drop init.length hchilled
      obtain ⟨hlt, rfl⟩ := List.getElem?_eq_some_iff.1 hget
      rw [List.drop_left, List.drop_eq_getElem_cons hlt] at hrel
      cases hrel with
      | cons h _ => exact h
    have htake : ys.take (init.length + 1) = ys.take init.length ++ [c₀] := by
      rw [take_add_one, hget]
      rfl
    have hlen : (ys.take init.length).length = init.length := by
      have := congrArg List.length hinit
      simpa using this
    have hset : (ys.take init.length ++ [c₀]).set init.length c₁ = ys.take init.length ++ [c₁] := by
      nth_rewrite 2 [← hlen]
      simp
    rw [htake, hset, hsplit, map_append, map_append, hinit, map_singleton,
      map_singleton, cutBack_mark hholds hgrew hnewest hc₁]

end Refused

end Stream
end SnugKV
