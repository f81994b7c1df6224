import SnugKV.Lib.Keyed
import SnugKV.Stream.GroupCommands

/-!
# Watch — what holds of a key while a transaction watches it

One invariant carries both halves of a stream transaction: from it the change can be described as
a record, and undone.  It relates the cell of a key to what the key held when the transaction
began; without a transaction it says that the stored parts are well formed.

* `Watched` — the invariant of a cell that holds a stream;
* `ensures_load`, `ensures_setLog`, `ensures_publish`, `ensures_create` — the primitives keep it.
-/

namespace SnugKV
namespace Stream

open Lib List Action

/-! ## Logs and stored values -/

structure Log.Sound (l : Log) : Prop where
  ascending : Ascending l.entries
  bounded : ∀ e ∈ l.entries, e.id ≤ l.lastID
  fields : ∀ e ∈ l.entries, e.fields ≠ []
  deleted : l.maxDeletedID ≤ l.lastID
  added : l.entriesAdded < 2 ^ 64

/-- One more entry; the counter of entries wraps. -/
def Log.append (l : Log) (e : StreamEntry) : Log :=
  ⟨l.entries ++ [e], e.id, l.maxDeletedID, (l.entriesAdded + 1) % 2 ^ 64⟩

variable {e : StreamEntry} {stub : Bytes} {p : PackedStream}

theorem Log.Sound.append {l : Log} (h : l.Sound) (hfields : e.fields ≠ [])
    (hlt : l.lastID < e.id) : (l.append e).Sound where
  ascending := by
    refine pairwise_append.2 ⟨h.ascending, pairwise_singleton .., ?_⟩
    intro x hx y hy
    rw [mem_singleton.1 hy]
    exact lt_of_le_of_lt (h.bounded x hx) hlt
  bounded := forall_mem_append.2 ⟨fun x hx => le_of_lt (lt_of_le_of_lt (h.bounded x hx) hlt),
    forall_mem_singleton.2 (le_refl _)⟩
  fields := forall_mem_append.2 ⟨h.fields, forall_mem_singleton.2 hfields⟩
  deleted := le_of_lt (lt_of_le_of_lt h.deleted hlt)
  added := Nat.mod_lt _ (by decide)

/-- The log shows `l`, and when a journal is attached it tells `l` from `l₀`. -/
def Body.Keeps (l₀ : Option Log) (b : Body) (l : Log) (added : List StreamEntry) : Prop :=
  match l₀ with
  | none => b.j = none ∧ b.Shows l
  | some l₀ => ∃ j, Tracks b j l₀ l added

/-- `stub` is the stored form of the groups of `p`. -/
structure Stored (stub : Bytes) (p : PackedStream) : Prop where
  entries : p.entries = []
  bytes : stub = packedBytes p
  sound : p.Sound
  valid : GroupsValid p.groups
  added : p.entriesAdded < 2 ^ 64
  size : stub.length ≤ maxPackedStreamBytes

theorem Stored.decode (h : Stored stub p) : decodePackedStream stub = some p.normalize := by
  rw [h.bytes]
  exact decodePackedStream_packedBytes h.sound h.valid h.added (h.bytes ▸ h.size)

variable {st : State}

theorem stored_of_encode (h : encodeStreamStub st = some stub)
    (hadded : st.entriesAdded < 2 ^ 64) : Stored stub st.packed := by
  obtain ⟨hsound, hvalid, hbytes, hsize⟩ := encodePackedStream_eq_some h
  exact ⟨rfl, hbytes, hsound, hvalid, hadded, hsize⟩

/-- What was stored packs by itself too. -/
theorem appendStreamGroups_nil_of_stored (h : Stored stub p) :
    appendStreamGroups [] p.groups = some (groupsBytes p.groups) := by
  refine appendStreamGroups_eq_some.2 ⟨h.valid, fun _ => ?_, rfl⟩
  have hsize := h.size
  rw [h.bytes, packedBytes, length_append] at hsize
  simp only [nil_append]
  omega

section Keeps

variable {l₀ : Option Log} {b : Body} {l : Log} {added : List StreamEntry}

section

variable (h : b.Keeps l₀ l added)

include h

theorem Body.Keeps.shows : b.Shows l := by
  cases l₀ with
  | none => exact h.2
  | some l₀ =>
    obtain ⟨j, hj⟩ := h
    exact hj.shows

theorem keeps_append (hsound : l.Sound) (env : Env)
    (hfits : e.Fits) (hfields : e.fields ≠ []) (hlt : l.lastID < e.id) (n : Nat) :
    ∃ b', b.append env e = some b' ∧
      (b'.syncLog e.id l.maxDeletedID n).Keeps l₀ ⟨l.entries ++ [e], e.id, l.maxDeletedID, n⟩
        (added ++ [e]) := by
  cases l₀ with
  | none =>
    obtain ⟨b', happ, his⟩ := append_is env h.2.is hfits fun x hx =>
      lt_of_le_of_lt (hsound.bounded x hx) hlt
    obtain ⟨-, hj⟩ := append_noted happ
    refine ⟨b', happ, ?_, his.of_bare rfl rfl rfl, rfl, rfl, rfl⟩
    change b'.j = none
    rw [hj, Body.noteAppend, h.1]
    rfl
  | some l₀ =>
    obtain ⟨j, hj⟩ := h
    obtain ⟨b', j', happ, htracks⟩ := tracks_append hj env hfits hfields hlt n
    exact ⟨b', happ, j', htracks⟩

theorem keeps_trimFront (n : Int) :
    ∃ b', b.trimFront n = some (b', min n.toNat l.entries.length) ∧
      b'.Keeps l₀ { l with entries := l.entries.drop n.toNat } added := by
  cases l₀ with
  | none =>
    obtain ⟨b', htrim, his, hcounters, hj⟩ := trimFront_spec h.2.is n
    refine ⟨b', htrim, ?_, his, hcounters.lastID.trans h.2.lastID,
      hcounters.maxDeletedID.trans h.2.maxDeletedID,
      hcounters.entriesAdded.trans h.2.entriesAdded⟩
    rw [hj]
    split_ifs
    · simp [Body.noteThrough, Body.beforeDestructive, h.1]
    · exact h.1
  | some l₀ =>
    obtain ⟨j, hj⟩ := h
    obtain ⟨b', j', htrim, htracks⟩ := tracks_trimFront hj n
    exact ⟨b', htrim, j', htracks⟩

theorem keeps_delete (ids : List StreamID) {maxDeletedID : StreamID}
    (hle : l.maxDeletedID ≤ maxDeletedID)
    (hmoved : maxDeletedID = l.maxDeletedID ∨ ∃ e ∈ l.entries, e.id ∈ ids) :
    ∃ b', b.delete ids = some (b', (l.entries.filter fun e => decide (e.id ∈ ids)).length) ∧
      (b'.syncLog l.lastID maxDeletedID l.entriesAdded).Keeps l₀
        ⟨l.entries.filter fun e => !decide (e.id ∈ ids), l.lastID, maxDeletedID, l.entriesAdded⟩
        added := by
  cases l₀ with
  | none =>
    obtain ⟨b', hdel, his, gone, hnoted, -⟩ := delete_spec h.2.is ids
    refine ⟨b', hdel, ?_, his.of_bare rfl rfl rfl, rfl, rfl, rfl⟩
    change b'.j = none
    rw [hnoted.j]
    split_ifs <;> simp [Body.noteDeleted, Body.beforeDestructive, h.1]
  | some l₀ =>
    obtain ⟨j, hj⟩ := h
    obtain ⟨b', j', hdel, htracks⟩ := tracks_delete hj ids hle hmoved
    exact ⟨b', hdel, j', htracks⟩

/-- Deleting without moving the counters. -/
theorem keeps_delete_only (ids : List StreamID) :
    ∃ b', b.delete ids = some (b', (l.entries.filter fun e => decide (e.id ∈ ids)).length) ∧
      b'.Keeps l₀ { l with entries := l.entries.filter fun e => !decide (e.id ∈ ids) } added := by
  obtain ⟨b', hdel, hkeeps⟩ := keeps_delete h ids (le_refl _) (.inl rfl)
  obtain ⟨x, hdel', -, gone, hnoted, -⟩ := delete_spec h.shows.is ids
  rw [hdel] at hdel'
  cases hdel'
  -- the counters were those already
  have hcounters : b'.SameCounters b := by
    have := hnoted.counters
    split_ifs at this
    · exact this
    · exact ⟨this.lastID, this.maxDeletedID, this.entriesAdded⟩
  have hsync : b'.syncLog l.lastID l.maxDeletedID l.entriesAdded = b' := by
    rw [← h.shows.lastID, ← h.shows.maxDeletedID, ← h.shows.entriesAdded, ← hcounters.lastID,
      ← hcounters.maxDeletedID, ← hcounters.entriesAdded]
    rfl
  exact ⟨b', hdel, hsync ▸ hkeeps⟩

end

end Keeps

/-! ## The invariant -/

/-- What a key held when the transaction began. -/
structure Start where
  stub : Bytes
  log : Log
  groups : List Group
  expiresAt : Int64

/-- The size limit of a published stream holds. -/
def Fitting (call : Call) (log : Body) (stub : Bytes) : Prop :=
  streamTooLarge call (log.dataBytes + stub.length) stub.length = false

/-- The notes about a key that existed.  `R` relates its groups then and now. -/
structure Noted (R : List Group → List Group → Prop) (call : Call) (s : Start) (item : Item)
    (stub : Bytes) (log : Body) (l : Log) (p : PackedStream) : Prop where
  existed : item.existed = true
  kept : item.lost = false
  relates : R s.groups p.normalize.groups
  pre : item.preStub = none ∨ item.preStub = some (s.stub, s.expiresAt)
  unpublished : item.groups = none → stub = s.stub
  published : ∀ packed, item.groups = some packed → packed = groupsBytes p.groups ∧
    item.preStub = some (s.stub, s.expiresAt) ∧ p.entriesAdded = l.entriesAdded ∧
    Fitting call log stub

/-- The notes about a key the transaction saw created. -/
structure Made (item : Item) (expiresAt : Int64) (l : Log) (p : PackedStream) : Prop where
  existed : item.existed = false
  kept : item.lost = false
  eternal : expiresAt = 0
  groups : item.groups = some (groupsBytes p.groups)
  added : p.entriesAdded = l.entriesAdded
  few : l.entries.length ≤ 1
  counted : l.entries.length ≤ l.entriesAdded

structure Watched (R : List Group → List Group → Prop) (call : Call) (start : Option Start)
    (c : Cell) (stub : Bytes) (log : Body) (expiresAt : Int64) (l : Log) (p : PackedStream)
    (added : List StreamEntry) : Prop where
  slot : c.slot = some ⟨.stream stub log, expiresAt⟩
  keeps : log.Keeps (start.map Start.log) l added
  sound : l.Sound
  stored : Stored stub p
  few : added.length ≤ 1
  made : start = none → ∃ item, c.item = some item ∧ Made item expiresAt l p
  noted : ∀ s, start = some s → expiresAt = s.expiresAt ∧
    l.entriesAdded = (s.log.entriesAdded + added.length) % 2 ^ 64 ∧
    ∃ item, c.item = some item ∧ Noted R call s item stub log l p

/-- Nothing is stored, and nothing noted but that. -/
def Blank (c : Cell) : Prop := c.slot = none ∧ c.item = some { existed := false }

/-- The cell is empty, or holds a watched stream with `P`. -/
def HeldWith (P : Cell → List StreamEntry → Prop) (R : List Group → List Group → Prop)
    (call : Call) (start : Option Start) (c : Cell) : Prop :=
  start = none ∧ Blank c ∨
    ∃ stub log expiresAt l p added,
      Watched R call start c stub log expiresAt l p added ∧ P c added

def Held (R : List Group → List Group → Prop) (call : Call) (start : Option Start) (c : Cell) :
    Prop := HeldWith (fun _ _ => True) R call start c

/-- Nothing was appended and no groups published since the transaction began. -/
def Quiet (c : Cell) (added : List StreamEntry) : Prop :=
  added = [] ∧ ∀ item, c.item = some item → item.groups = none

variable {P : Cell → List StreamEntry → Prop}

theorem HeldWith.held
    {R : List Group → List Group → Prop} {call : Call} {start : Option Start} {c : Cell}
    (h : HeldWith P R call start c) : Held R call start c := by
  rcases h with h | ⟨stub, log, expiresAt, l, p, added, h, -⟩
  · exact .inl h
  · exact .inr ⟨stub, log, expiresAt, l, p, added, h, trivial⟩

def Live (expiresAt now : Int64) : Prop := expiresAt = 0 ∨ now < expiresAt

theorem Live.not_expired {expiresAt now : Int64} (h : Live expiresAt now) (v : Value) :
    Slot.expired ⟨v, expiresAt⟩ now = false := by
  unfold Slot.expired
  rcases h with rfl | h
  · simp
  · simp only [Bool.and_eq_false_iff, decide_eq_false_iff_not]
    exact .inr (Int64.not_le.2 h)

section Primitives

variable {R : List Group → List Group → Prop} {call : Call} {start : Option Start} {c : Cell}
  {stub : Bytes} {log : Body} {expiresAt : Int64} {l : Log} {p : PackedStream}
  {added : List StreamEntry} {α : Type}

def stateOf (log : Body) (l : Log) (p : PackedStream) : State :=
  ⟨l.lastID, l.entriesAdded, l.maxDeletedID, p.normalize.groups, log⟩

theorem Watched.live (h : Watched R call start c stub log expiresAt l p added)
    (hlive : ∀ s, start = some s → Live s.expiresAt call.now) : Live expiresAt call.now := by
  cases hstart : start with
  | none =>
    -- a key made in the transaction has no deadline
    obtain ⟨item, -, hmade⟩ := h.made hstart
    exact .inl hmade.eternal
  | some s =>
    rw [(h.noted s hstart).1]
    exact hlive s hstart

/-- The prologue of every command: a key that existed when the transaction began is still there. -/
theorem ensures_loadLog
    {k : Option (Bytes × Body) → CellM α} {Q : α → Cell → Prop}
    (hlive : ∀ s, start = some s → Live s.expiresAt call.now)
    (hnone : start = none → Ensures Blank (k none) Q)
    (hsome : ∀ c stub log expiresAt l p added,
      Watched R call start c stub log expiresAt l p added → P c added →
        Ensures (fun x => x = c) (k (some (stub, log))) Q) :
    Ensures (HeldWith P R call start) (loadLog call.now >>= k) Q := by
  refine Meets.given fun c hc => ?_
  rcases hc with ⟨hstart, hblank⟩ | ⟨stub, log, expiresAt, l, p, added, hw, hP⟩
  · refine Meets.bind_of_ok (a := none) (t := c) ?_ ?_
    · simp [loadLog, hblank.1]
    · exact (hnone hstart).pre fun x hx => hx ▸ hblank
  · refine Meets.bind_of_ok (a := some (stub, log)) (t := c) ?_
      (hsome c stub log expiresAt l p added hw hP)
    simp [loadLog, hw.slot, (hw.live hlive).not_expired]

/-- What a command works on is what its key shows. -/
theorem decoded_bind (hshows : log.Shows l) (hstored : Stored stub p)
    {k : Option State → CellM α} :
    (ofOption .corrupt (decodePackedStream stub) >>= fun p =>
      pure (some ⟨log.lastID, log.entriesAdded, log.maxDeletedID, p.groups, log⟩) >>= k) =
      k (some (stateOf log l p)) := by
  rw [hstored.decode, ofOption_some_bind, pure_bind, stateOf, hshows.lastID,
    hshows.entriesAdded, hshows.maxDeletedID]

theorem ensures_load
    {k : Option State → CellM α} {Q : α → Cell → Prop}
    (hlive : ∀ s, start = some s → Live s.expiresAt call.now)
    (hnone : start = none → Ensures Blank (k none) Q)
    (hsome : ∀ c stub log expiresAt l p added,
      Watched R call start c stub log expiresAt l p added → P c added →
        Ensures (fun x => x = c) (k (some (stateOf log l p))) Q) :
    Ensures (HeldWith P R call start) (loadStream call.now >>= k) Q := by
  rw [loadStream, bind_assoc]
  refine ensures_loadLog hlive (fun hstart => ?_) fun c stub log expiresAt l p added hw hP => ?_
  · simpa using hnone hstart
  · rw [bind_assoc, decoded_bind hw.keeps.shows hw.stored]
    exact hsome c stub log expiresAt l p added hw hP

variable {log' : Body} {l' : Log}

/-- A change to the log alone.  After the groups were published the stream may only shrink. -/
theorem Watched.setLog (h : Watched R call start c stub log expiresAt l p added)
    {added' : List StreamEntry} (hkeeps : log'.Keeps (start.map Start.log) l' added')
    (hsound : l'.Sound)
    (hcount : ∀ n, l.entriesAdded = (n + added.length) % 2 ^ 64 →
      l'.entriesAdded = (n + added'.length) % 2 ^ 64)
    (hfew : added'.length ≤ 1)
    (hshrinks : ∀ item, c.item = some item → item.groups ≠ none →
      l'.entriesAdded = l.entriesAdded ∧ l'.entries.length ≤ l.entries.length ∧
        log'.dataBytes ≤ log.dataBytes) :
    Watched R call start { c with slot := some ⟨.stream stub log', expiresAt⟩ } stub log' expiresAt
      l' p added' where
  slot := rfl
  keeps := hkeeps
  sound := hsound
  stored := h.stored
  few := hfew
  made := by
    intro hstart
    obtain ⟨item, hitem, hmade⟩ := h.made hstart
    obtain ⟨hsame, hlen, -⟩ := hshrinks item hitem (by simp [hmade.groups])
    exact ⟨item, hitem, { hmade with
      added := hmade.added.trans hsame.symm
      few := hlen.trans hmade.few
      counted := by
        rw [hsame]
        exact hlen.trans hmade.counted }⟩
  noted := by
    intro s hs
    obtain ⟨hat, hadded, item, hitem, hnoted⟩ := h.noted s hs
    refine ⟨hat, hcount _ hadded, item, hitem, { hnoted with published := ?_ }⟩
    intro packed hpacked
    obtain ⟨hbytes, hpre, hsame, hfits⟩ := hnoted.published packed hpacked
    obtain ⟨hsame', -, hle⟩ := hshrinks item hitem (by simp [hpacked])
    refine ⟨hbytes, hpre, hsame.trans hsame'.symm, ?_⟩
    -- a smaller stream stays within the limit
    unfold Fitting streamTooLarge at hfits ⊢
    split_ifs at hfits ⊢
    · exact hfits
    · simp only [gt_iff_lt, decide_eq_false_iff_not, not_lt] at hfits ⊢
      omega

/-- Storing is refused, with at the most a note of what was stored before, or comes about. -/
theorem publishes (call : Call) (st : State)
    (hslot : c.slot = some ⟨.stream stub log, expiresAt⟩) :
    Meets (fun x => x = c) (publishStreamState call st)
      (fun _ c' => ∃ stub', c' = { c.notePreStub stub expiresAt with
          slot := some ⟨.stream stub' log, expiresAt⟩ }.noteStreamGroups st.groups ∧
        encodeStreamStub st = some stub' ∧
          streamTooLarge call (streamLogicalSize st stub'.length) stub'.length = false)
      fun e c' => (c' = c ∨ c' = c.notePreStub stub expiresAt) ∧
        e ∈ [.tooLarge, .outOfMemory, stubRefusal st] := by
  refine Meets.bind_ofOption (fun _ x hx => ⟨.inl hx, by simp⟩) fun stub' hstub => ?_
  refine Meets.ite (fun _ => Meets.fail fun x hx => ⟨.inl hx, by simp⟩) fun hsmall => ?_
  rintro x rfl
  simp only [hslot]
  cases call.admitPublish (x.notePreStub stub expiresAt) stub' with
  | false => exact ⟨.inr rfl, by simp⟩
  | true => exact ⟨stub', rfl, hstub, by simpa using hsmall⟩

theorem creates (call : Call) (st : State) (c : Cell) :
    Meets (fun x => x = c) (createStream call st)
      (fun _ c' => ∃ stub, c' = Cell.noteStreamGroups
          { c with slot := some ⟨.stream stub (st.log.spillCold call.env), 0⟩ } st.groups ∧
        encodeStreamStub st = some stub)
      fun e c' => c' = c ∧ e ∈ [.tooLarge, .outOfMemory, stubRefusal st] := by
  refine Meets.bind_ofOption (fun _ x hx => ⟨hx, by simp⟩) fun stub hstub => ?_
  refine Meets.ite (fun _ => Meets.fail fun x hx => ⟨hx, by simp⟩) fun _ => ?_
  rintro x rfl
  dsimp only
  cases call.admitGrowth x st.log.dataCap && call.admitPublish x stub with
  | false => exact ⟨rfl, by simp⟩
  | true => exact ⟨stub, rfl, hstub⟩

theorem ensures_publish {R' : List Group → List Group → Prop}
    (h : Watched R call start c stub log expiresAt l p added) (hlog : st.log = log)
    (hadded : st.entriesAdded = l.entriesAdded)
    (hrel : ∀ s, start = some s → GroupsValid st.groups →
      R' s.groups (st.groups.map Group.normalize)) :
    Ensures (fun x => x = c) (publishStreamState call st) fun _ c' =>
      ∃ stub', Watched R' call start c' stub' log expiresAt l st.packed added := by
  refine (publishes call st h.slot).ensures.post ?_
  rintro _ c' ⟨stub', rfl, hstub, hsmall⟩
  have hstored := stored_of_encode hstub (hadded ▸ h.sound.added)
  have hpacked : appendStreamGroups [] st.groups = some (groupsBytes st.groups) :=
    appendStreamGroups_nil_of_stored hstored
  refine ⟨stub', ?_⟩
  exact
    { slot := rfl
      keeps := h.keeps
      sound := h.sound
      stored := hstored
      few := h.few
      made := by
        intro hstart
        obtain ⟨item, hitem, hmade⟩ := h.made hstart
        refine ⟨{ item with groups := some (groupsBytes st.groups) }, ?_, hmade.existed, hmade.kept,
          hmade.eternal, rfl, hadded, hmade.few, hmade.counted⟩
        simp [Cell.noteStreamGroups, Cell.notePreStub, hitem, hmade.existed, hpacked]
      noted := by
        intro s hs
        obtain ⟨hat, hcount, item, hitem, hnoted⟩ := h.noted s hs
        refine ⟨hat, hcount, { item with
          preStub := some (s.stub, s.expiresAt), groups := some (groupsBytes st.groups) }, ?_, ?_⟩
        · -- the stored value noted is the one at the start
          simp only [Cell.noteStreamGroups, Cell.notePreStub, hitem, Option.map_some, hpacked,
            hnoted.existed, Bool.not_true, Bool.false_or]
          rcases hnoted.pre with hpre | hpre
          · have hstub₀ : stub = s.stub := by
              refine hnoted.unpublished ?_
              rcases hgroups : item.groups with - | packed
              · rfl
              · have := (hnoted.published packed hgroups).2.1
                rw [hpre] at this
                cases this
            simp [hpre, hstub₀, hat]
          · simp [hpre, hnoted.existed]
        · exact
            { existed := hnoted.existed
              kept := hnoted.kept
              relates := hrel s hs hstored.valid
              pre := .inr rfl
              unpublished := nofun
              published := by
                rintro packed ⟨⟩
                refine ⟨rfl, rfl, hadded, ?_⟩
                simpa [Fitting, streamLogicalSize, hlog] using hsmall } }

theorem spillCold_shows (env : Env) {b : Body} {l : Log} (h : b.Shows l) (hj : b.j = none) :
    (b.spillCold env).j = none ∧ (b.spillCold env).Shows l := by
  obtain ⟨hcounters, hsame, -⟩ := spillCold_same env b
  exact ⟨hsame.trans hj, spillCold_is env h.is, hcounters.lastID.trans h.lastID,
    hcounters.maxDeletedID.trans h.maxDeletedID, hcounters.entriesAdded.trans h.entriesAdded⟩

theorem ensures_create (hshows : st.log.Shows l) (hj : st.log.j = none)
    (hsound : l.Sound) (hadded : st.entriesAdded = l.entriesAdded) (hfew : l.entries.length ≤ 1)
    (hcounted : l.entries.length ≤ l.entriesAdded) :
    Ensures Blank (createStream call st) fun _ c' =>
      ∃ stub, Watched R call none c' stub (st.log.spillCold call.env) 0 l st.packed [] := by
  refine Meets.given fun c hblank => (creates call st c).ensures.post ?_
  rintro _ c' ⟨stub, rfl, hstub⟩
  have hstored := stored_of_encode hstub (hadded ▸ hsound.added)
  have hpacked : appendStreamGroups [] st.groups = some (groupsBytes st.groups) :=
    appendStreamGroups_nil_of_stored hstored
  refine ⟨stub, ?_⟩
  exact
    { slot := rfl
      keeps := spillCold_shows call.env hshows hj
      sound := hsound
      stored := hstored
      few := by simp
      made := by
        intro _
        refine ⟨{ existed := false, groups := some (groupsBytes st.groups) }, ?_, rfl, rfl,
          rfl, rfl,
          hadded, hfew, hcounted⟩
        simp [Cell.noteStreamGroups, hblank.2, hpacked]
      noted := by
        intro s hs
        cases hs }

/-! ## Changes to the log -/

/-- Some entries are gone; of the counters only the last deletion may have moved. -/
structure Log.Trimmed (l' l : Log) : Prop where
  entries : l'.entries.Sublist l.entries
  lastID : l'.lastID = l.lastID
  entriesAdded : l'.entriesAdded = l.entriesAdded
  deleted : l'.maxDeletedID ≤ l.lastID

theorem Log.Sound.trimmed {l : Log} (h : l.Sound) (ht : l'.Trimmed l) : l'.Sound where
  ascending := h.ascending.sublist ht.entries
  bounded := by
    intro e he
    rw [ht.lastID]
    exact h.bounded e (ht.entries.subset he)
  fields := fun e he => h.fields e (ht.entries.subset he)
  deleted := by
    rw [ht.lastID]
    exact ht.deleted
  added := by
    rw [ht.entriesAdded]
    exact h.added

theorem Body.Is.dataBytes {b : Body} {es : List StreamEntry} (h : b.Is es) :
    b.dataBytes = (entriesBytes es).length := by
  rcases h with ⟨cs, hcs, rfl⟩
  exact hcs.dataBytes

theorem Watched.shrink (h : Watched R call start c stub log expiresAt l p added)
    (hkeeps : log'.Keeps (start.map Start.log) l' added) (ht : l'.Trimmed l) :
    Watched R call start { c with slot := some ⟨.stream stub log', expiresAt⟩ } stub log' expiresAt
      l' p added := by
  refine h.setLog hkeeps (h.sound.trimmed ht) (fun n hn => ht.entriesAdded.trans hn) h.few
    fun _ _ _ => ⟨ht.entriesAdded, ht.entries.length_le, ?_⟩
  rw [hkeeps.shows.is.dataBytes, h.keeps.shows.is.dataBytes]
  exact (ht.entries.flatMap entryBytes).length_le

/-- An append to the log, before any groups were published. -/
theorem Watched.append (h : Watched R call start c stub log expiresAt l p added)
    (hquiet : Quiet c added) (hfields : e.fields ≠ [])
    (hlt : l.lastID < e.id)
    (hkeeps : log'.Keeps (start.map Start.log) (l.append e) (added ++ [e])) :
    Watched R call start { c with slot := some ⟨.stream stub log', expiresAt⟩ } stub log' expiresAt
      (l.append e) p (added ++ [e]) := by
  refine h.setLog hkeeps (h.sound.append hfields hlt) ?_ ?_ ?_
  · intro n hn
    simp only [Log.append, hn, length_append, length_singleton]
    omega
  · simp [hquiet.1]
  · intro item hitem hne
    exact absurd (hquiet.2 item hitem) hne

end Primitives

end Stream
end SnugKV
