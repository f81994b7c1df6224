import SnugKV.Lib.Action
import SnugKV.Persistence.Framing
import SnugKV.Persistence.Log

/-!
# Recovery — what a restart finds in its files

`Open`, `Read` and `ReplaySnapshot` of `persistence/log.go` on files that were cut, and the callback
with which `cmd/snugkv/main.go` restores the store and the replication checkpoint.

* `readLog_fold` — every callback sees the batches that the collecting one gathers;
* `openFile_take` — opening a file that was cut keeps its whole frames;
* `recovers_iff` — any number of lives of a server, each of which ends with a cut of the log;
* `snapshot_whole_iff` — a snapshot is accepted as a whole or not at all;
* `checkpoint_recovered` — store and checkpoint come from the same frames.
-/

namespace SnugKV
namespace Persistence

open Lib List

/-! ## Callbacks -/

section Callbacks

variable {σ : Type} (apply : σ → List Record → σ × Option Error)

/-- The state behind the batches, when the callback accepts each of them. -/
def takeAll : σ → List (List Record) → Option σ
  | s, [] => some s
  | s, records :: batches =>
    if (apply s records).2 = none then takeAll (apply s records).1 batches else none

/-- Both callbacks make the reader take the same branches, as long as neither fails. -/
theorem readFrames_fold : ∀ (fuel : Nat) (data : Bytes) (offset : Nat) (bs : List (List Record)),
    (readFrames collect fuel data offset bs).err = none →
      ∃ new, (readFrames collect fuel data offset bs).state = bs ++ new ∧
        ∀ s s', takeAll apply s new = some s' → readFrames apply fuel data offset s =
          ⟨s', (readFrames collect fuel data offset bs).offset, none⟩ := by
  intro fuel
  induction fuel with
  | zero =>
    intro data offset bs _
    refine ⟨[], (append_nil bs).symm, ?_⟩
    rintro s _ ⟨⟩
    rfl
  | succ fuel ih =>
    intro data offset bs herr
    have hstop : ∃ new, bs = bs ++ new ∧ ∀ s s', takeAll apply s new = some s' →
        (⟨s, offset, none⟩ : ReadResult σ) = ⟨s', offset, none⟩ :=
      ⟨[], (append_nil bs).symm, by rintro s _ ⟨⟩; rfl⟩
    simp only [readFrames] at herr ⊢
    split_ifs at herr ⊢
    · exact hstop
    · exact hstop
    · generalize readPayload _ = payload at herr ⊢
      cases payload with
      | error e => cases herr
      | ok records =>
        rcases ih _ _ _ herr with ⟨new, hstate, hrest⟩
        refine ⟨records :: new, hstate.trans (append_assoc _ _ _), fun s s' hs => ?_⟩
        rw [takeAll] at hs
        split_ifs at hs with hok
        rcases happly : apply s records with ⟨s₁, e⟩
        rw [happly] at hok hs
        cases hok
        simp only [happly]
        exact hrest s₁ s' hs

variable {apply}

theorem readLog_fold {data : Bytes} {s s' : σ} (herr : (readLog collect [] data).err = none)
    (hs : takeAll apply s (readLog collect [] data).state = some s') :
    readLog apply s data = ⟨s', (readLog collect [] data).offset, none⟩ := by
  unfold readLog at *
  split_ifs at *
  rcases readFrames_fold apply _ _ _ _ herr with ⟨new, hstate, hrest⟩
  rw [hstate] at hs
  exact hrest s s' hs

end Callbacks

/-! ## Opening -/

/-- What `Open` leaves in the file: a header when it was empty, and otherwise everything up to the
offset that `Read` returns.  Its callback does nothing, so what `collect` gathers is dropped. -/
def openFile (content : Bytes) : Except Error Bytes :=
  if content = [] then .ok magic
  else
    match (readLog collect [] content).err with
    | some e => .error e
    | none => .ok (content.take (readLog collect [] content).offset)

variable {texts : List Bytes} {batches : List (List Record)}

theorem length_take_whole (texts : List Bytes) : ∀ n,
    (texts.take (whole texts n)).flatten.length ≤ n := by
  induction texts with
  | nil => simp
  | cons t ts ih =>
    intro n
    rw [whole]
    split_ifs with ht
    · have := ih (n - t.length)
      rw [take_succ_cons, flatten_cons, length_append]
      omega
    · simp

theorem frameOffset_le (texts : List Bytes) {n : Nat} (hn : magic.length ≤ n) :
    frameOffset texts (framesInside texts n) ≤ n := by
  rw [framesInside_eq, if_pos hn, frameOffset]
  have := length_take_whole texts (n - magic.length)
  omega

theorem readLog_whole (h : Forall₂ Delivers texts batches) :
    readLog collect [] (fileOf texts) = ⟨batches, (fileOf texts).length, none⟩ := by
  have hstate := readLog_file h
  have htake := (readLog_take h (fileOf texts).length).2.1 (by simp [fileOf])
  rw [take_length, framesInside_length, frameOffset, take_length] at htake
  rcases htake with ⟨hoffset, herr⟩
  generalize readLog collect [] (fileOf texts) = r at hstate hoffset herr ⊢
  cases r
  simp_all [fileOf]

/-- A cut inside the header is fatal; any other one costs the frames that it reaches. -/
theorem openFile_take (h : Forall₂ Delivers texts batches) (n : Nat) :
    openFile ((fileOf texts).take n) =
      if n = 0 ∨ magic.length ≤ n then .ok (fileOf (texts.take (framesInside texts n)))
      else .error .unexpectedEOF := by
  by_cases h0 : n = 0
  · rw [h0, if_pos (.inl rfl), framesInside_eq, if_neg (by decide)]
    simp [openFile, fileOf]
  have hne : (fileOf texts).take n ≠ [] := by
    rw [Ne, take_eq_nil_iff, not_or]
    exact ⟨h0, by simp [fileOf, magic, ascii]⟩
  by_cases hn : magic.length ≤ n
  · rcases (readLog_take h n).2.1 hn with ⟨hoffset, herr⟩
    have hsplit : fileOf texts = fileOf (texts.take (framesInside texts n)) ++
        (texts.drop (framesInside texts n)).flatten := by
      rw [fileOf, fileOf, append_assoc, ← flatten_append, take_append_drop]
    rw [openFile, if_neg hne, herr, hoffset, if_pos (.inr hn)]
    simp only
    rw [take_take, min_eq_left (frameOffset_le texts hn), hsplit,
      take_left' (by simp [fileOf, frameOffset])]
  · have hshort : ((fileOf texts).take n).length < magic.length := by
      rw [length_take]
      omega
    rw [openFile, if_neg hne, readLog, if_pos hshort, if_neg hne, if_neg (by simp [h0, hn])]

/-! ## Lives of a server -/

/-- What a server appends between its start and its end, and how much of its file is left. -/
structure Session where
  frames : List Frame
  left : Nat

namespace Session

/-- The frames that can be encoded; `Append` refuses the others and goes on. -/
def accepted (s : Session) : List (Frame × Bytes) :=
  s.frames.filterMap fun f => f.encode.toOption.map (f, ·)

/-- From one opened file to the next one. -/
def life (file : Bytes) (s : Session) : Except Error Bytes :=
  openFile ((file ++ (s.accepted.map Prod.snd).flatten).take s.left)

/-- The frames that are whole when the session has ended. -/
def keep (l : List (Frame × Bytes)) (s : Session) : List (Frame × Bytes) :=
  (l ++ s.accepted).take (framesInside ((l ++ s.accepted).map Prod.snd) s.left)

/-- The cut is not inside the header. -/
def Intact (s : Session) : Prop := s.left = 0 ∨ magic.length ≤ s.left

instance decidableIntact (s : Session) : Decidable s.Intact :=
  inferInstanceAs (Decidable (_ ∨ _))

end Session

def lives (sessions : List Session) : Except Error Bytes :=
  openFile [] >>= fun file => sessions.foldlM Session.life file

def survivors (sessions : List Session) : List (Frame × Bytes) :=
  sessions.foldl Session.keep []

def Encoded (l : List (Frame × Bytes)) : Prop :=
  ∀ p ∈ l, p.1.encode = .ok p.2

variable {l : List (Frame × Bytes)}

theorem Encoded.delivers (h : Encoded l) :
    Forall₂ Delivers (l.map Prod.snd) (l.map fun p => delivered p.1) := by
  rw [forall₂_map_left_iff, forall₂_map_right_iff, forall₂_same]
  exact fun p hp => readPayload_encode (h p hp)

theorem Encoded.append_accepted (h : Encoded l) (s : Session) : Encoded (l ++ s.accepted) := by
  intro p hp
  rcases mem_append.1 hp with hp | hp
  · exact h p hp
  · rcases mem_filterMap.1 hp with ⟨f, -, hf⟩
    cases hencode : f.encode with
    | error e => simp [hencode, Except.toOption] at hf
    | ok text =>
      simp only [hencode, Except.toOption, Option.map_some, Option.some.injEq] at hf
      rw [← hf]
      exact hencode

theorem Encoded.keep (h : Encoded l) (s : Session) : Encoded (s.keep l) :=
  fun p hp => h.append_accepted s p (mem_of_mem_take hp)

theorem life_eq (h : Encoded l) (s : Session) : Session.life (fileOf (l.map Prod.snd)) s =
    if s.Intact then .ok (fileOf ((s.keep l).map Prod.snd)) else .error .unexpectedEOF := by
  have hfile : fileOf (l.map Prod.snd) ++ (s.accepted.map Prod.snd).flatten =
      fileOf ((l ++ s.accepted).map Prod.snd) := by
    simp [fileOf]
  rw [Session.life, hfile, openFile_take (h.append_accepted s).delivers, ← map_take]
  rfl

/-- By induction on the sessions: each of them starts from whole frames and leaves whole frames. -/
theorem foldlM_life (sessions : List Session) : ∀ {l : List (Frame × Bytes)}, Encoded l →
    sessions.foldlM Session.life (fileOf (l.map Prod.snd)) =
      if ∀ s ∈ sessions, s.Intact then .ok (fileOf ((sessions.foldl Session.keep l).map Prod.snd))
      else .error .unexpectedEOF := by
  induction sessions with
  | nil =>
    simp
    exact fun _ => rfl
  | cons s sessions ih =>
    intro l h
    rw [foldlM_cons, life_eq h]
    by_cases hs : s.Intact
    · rw [if_pos hs]
      refine (ih (h.keep s)).trans ?_
      simp [hs]
    · simp [hs]
      rfl

theorem encoded_foldl (sessions : List Session) : ∀ {l : List (Frame × Bytes)}, Encoded l →
    Encoded (sessions.foldl Session.keep l) := by
  induction sessions with
  | nil => exact fun h => h
  | cons s sessions ih => exact fun h => ih (h.keep s)

/-- However often the server is ended and whatever each end leaves of its log, the next start finds
exactly the frames that no cut has reached, in order, and goes on behind the last of them, unless
a cut fell inside the header: then no start succeeds any more. -/
theorem recovers_iff (sessions : List Session) :
    (∃ file, lives sessions = .ok file ∧ readLog collect [] file =
      ⟨(survivors sessions).map fun p => delivered p.1, file.length, none⟩) ↔
      ∀ s ∈ sessions, s.Intact := by
  have hnil : Encoded [] := by simp [Encoded]
  have hlives : lives sessions = if ∀ s ∈ sessions, s.Intact then
      .ok (fileOf ((survivors sessions).map Prod.snd)) else .error .unexpectedEOF :=
    foldlM_life sessions hnil
  rw [hlives]
  constructor
  · rintro ⟨file, hfile, -⟩
    by_contra hcut
    rw [if_neg hcut] at hfile
    cases hfile
  · intro hintact
    exact ⟨_, if_pos hintact, readLog_whole (encoded_foldl sessions hnil).delivers⟩

/-! ## Snapshots -/

def errAfterFooter : Error := .text "data follows snapshot footer"
def errTruncated : Error := .text "truncated snapshot"

section

variable {σ : Type} (apply : σ → List Record → σ × Option Error)

/-- The callback of `ReplaySnapshot`: whether it has seen the footer, and the state of `apply`. -/
def snapshotApply (s : Bool × σ) (records : List Record) : (Bool × σ) × Option Error :=
  if s.1 then (s, some errAfterFooter)
  else if records.length = 0 then ((true, s.2), none)
  else ((false, (apply s.2 records).1), (apply s.2 records).2)

def replaySnapshot (s : σ) (data : Bytes) : σ × Option Error :=
  let r := readLog (snapshotApply apply) (false, s) data
  match r.err with
  | some e => (r.state.2, some e)
  | none =>
    if r.state.1 = false ∨ r.offset ≠ data.length then (r.state.2, some errTruncated)
    else (r.state.2, none)

end

/-- The frames in front of the footer are collected one by one. -/
theorem takeAll_records (rs : List Record) (tail : List (List Record)) :
    ∀ acc, takeAll (snapshotApply collect) (false, acc) (rs.map (fun r => [r]) ++ tail) =
      takeAll (snapshotApply collect) (false, acc ++ rs.map fun r => [r]) tail := by
  induction rs with
  | nil => simp
  | cons r rs ih =>
    intro acc
    rw [map_cons, cons_append, takeAll]
    simp [snapshotApply, collect, ih]

theorem forall₂_of_mapM {α β : Type} {f : α → Except Error β} : ∀ {as : List α} {bs : List β},
    as.mapM f = .ok bs → Forall₂ (fun a b => f a = .ok b) as bs := by
  intro as
  induction as with
  | nil =>
    rintro bs ⟨⟩
    exact .nil
  | cons a as ih =>
    intro bs h
    rw [mapM_cons] at h
    rcases bind_eq_ok h with ⟨b, hb, h⟩
    rcases bind_eq_ok h with ⟨bs, hbs, ⟨⟩⟩
    exact .cons hb (ih hbs)

/-- What a snapshot holds when its strings are repaired, as those of every frame. -/
def repaired (records : List Record) : List Record :=
  records.map (Record.mapStrings toValidUtf8)

theorem snapshotText_ok {records : List Record} {text : Bytes}
    (h : snapshotText records = .ok text) : ∃ texts, text = fileOf texts ∧
      Forall₂ Delivers texts ((repaired records).map (fun r => [r]) ++ [[]]) := by
  unfold snapshotText at h
  split at h
  · cases h
  next texts htexts =>
    cases h
    refine ⟨texts, rfl, ?_⟩
    have hall := (forall₂_of_mapM htexts).imp fun batch text hbatch =>
      readPayload_encode (f := .generic (some batch)) hbatch
    have hframes : (repaired records).map (fun r => [r]) ++ [[]] =
        (records.map (fun r => [r]) ++ [[]]).map (List.map (Record.mapStrings toValidUtf8)) := by
      simp [repaired]
    rw [hframes, forall₂_map_right_iff]
    exact hall.flip

theorem framesInside_lt {n : Nat} (hn : n < (fileOf texts).length) (hmagic : magic.length ≤ n) :
    framesInside texts n < texts.length := by
  by_contra hall
  have hle := frameOffset_le texts hmagic
  rw [frameOffset, take_of_length_le (not_lt.1 hall)] at hle
  rw [fileOf, length_append] at hn
  omega

/-- A snapshot that was cut restores some of its records and is refused. -/
theorem replaySnapshot_cut {rs : List Record}
    (h : Forall₂ Delivers texts (rs.map (fun r => [r]) ++ [[]])) {n : Nat}
    (hn : n < (fileOf texts).length) : ∃ k e,
      replaySnapshot collect [] ((fileOf texts).take n) =
        ((rs.take k).map (fun r => [r]), some e) := by
  by_cases hmagic : magic.length ≤ n
  · rcases readLog_take h n with ⟨hstate, hrest, -⟩
    have hlt := framesInside_lt hn hmagic
    rw [h.length_eq, length_append, length_singleton, length_map] at hlt
    rw [take_append_of_le_length (by rw [length_map]; omega), ← map_take] at hstate
    have htake := takeAll_records (rs.take (framesInside texts n)) [] []
    rw [append_nil, ← hstate] at htake
    -- the footer was not reached
    refine ⟨framesInside texts n, errTruncated, ?_⟩
    rw [replaySnapshot, readLog_fold (hrest hmagic).2 htake]
    simp [hstate]
  · refine ⟨0, if (fileOf texts).take n = [] then .eof else .unexpectedEOF, ?_⟩
    have hshort : ((fileOf texts).take n).length < magic.length := by
      rw [length_take]
      omega
    rw [replaySnapshot, readLog, if_pos hshort]
    rfl

/-- A snapshot is accepted exactly when nothing of it is missing, and then every record is restored,
in order and one by one.  Of a snapshot that was cut only a prefix is restored, with an error. -/
theorem snapshot_whole_iff {records : List Record} {text : Bytes}
    (h : snapshotText records = .ok text) (n : Nat) :
    let r := replaySnapshot collect [] (text.take n)
    (r.2 = none ↔ text.length ≤ n) ∧ r.1 <+: (repaired records).map (fun r => [r]) ∧
      (text.length ≤ n → r.1 = (repaired records).map fun r => [r]) := by
  rcases snapshotText_ok h with ⟨texts, rfl, hdelivers⟩
  intro r
  by_cases hn : (fileOf texts).length ≤ n
  · have hread := readLog_whole hdelivers
    have htake := takeAll_records (repaired records) [[]] []
    have hfold := readLog_fold (congrArg ReadResult.err hread) (by rw [hread]; exact htake)
    have hr : r = ((repaired records).map (fun r => [r]), none) := by
      simp only [r, replaySnapshot, take_of_length_le hn, hfold, hread]
      simp [snapshotApply]
    simp [hr, hn]
  · rcases replaySnapshot_cut hdelivers (not_le.1 hn) with ⟨k, e, hr⟩
    have hr' : r = _ := hr
    rw [hr']
    refine ⟨by simp [hn], ?_, fun hle => absurd hle hn⟩
    rw [map_take]
    exact take_prefix k _

theorem snapshot_whole_two : ∃ text, snapshotText [{ reset := true }, plainRecord [1] [2]] =
    .ok text ∧
    (replaySnapshot collect [] (text.take 40)).2 ≠ none := by
  have htext : snapshotText [{ reset := true }, plainRecord [1] [2]] = .ok _ := rfl
  exact ⟨_, htext, fun hnone =>
    absurd ((snapshot_whole_iff htext 40).1.1 hnone) (by decide +kernel)⟩

/-! ## The replication checkpoint -/

def recoverReplicationCheckpoint (current : Option ReplicationCheckpoint) (records : List Record) :
    Option ReplicationCheckpoint :=
  records.foldl (fun current r =>
    match r.replication with
    | none => current
    | some c => if c.clear then some { clear := true } else some c) current

/-- The callback of the startup, around `store.Restore`. -/
def startupApply {σ : Type} (restore : σ → List Record → σ × Option Error)
    (s : σ × Option ReplicationCheckpoint) (records : List Record) :
    (σ × Option ReplicationCheckpoint) × Option Error :=
  (((restore s.1 records).1, recoverReplicationCheckpoint s.2 records), (restore s.1 records).2)

/-- What the last record that speaks of replication leaves. -/
def lastCheckpoint (records : List Record) : Option ReplicationCheckpoint :=
  (records.filterMap Record.replication).getLast?.map fun c =>
    if c.clear then { clear := true } else c

theorem recoverReplicationCheckpoint_eq (records : List Record) (current) :
    recoverReplicationCheckpoint current records = (lastCheckpoint records).or current := by
  induction records using List.reverseRecOn with
  | nil => rfl
  | append_singleton records r ih =>
    unfold recoverReplicationCheckpoint at ih ⊢
    rw [foldl_append, ih]
    rcases hr : r.replication with _ | c
    · simp [lastCheckpoint, hr]
    · by_cases hclear : c.clear = true <;> simp [lastCheckpoint, hr, hclear]

theorem takeAll_startup {σ : Type} {restore : σ → List Record → σ × Option Error} :
    ∀ {batches : List (List Record)} {s s' : σ} {c}, takeAll restore s batches = some s' →
      takeAll (startupApply restore) (s, c) batches =
        some (s', recoverReplicationCheckpoint c batches.flatten) := by
  intro batches
  induction batches with
  | nil =>
    rintro s _ c ⟨⟩
    rfl
  | cons records batches ih =>
    intro s s' c h
    rw [takeAll] at h ⊢
    split_ifs at h with hok
    have hsame : (startupApply restore (s, c) records).2 = none := hok
    rw [if_pos hsame]
    refine (ih h).trans ?_
    simp [recoverReplicationCheckpoint]

/-- A restart from a log that was cut behind its header restores the whole frames, and the
replication checkpoint is the last one that these frames set or clear. -/
theorem checkpoint_recovered {σ : Type} {restore : σ → List Record → σ × Option Error}
    {frames : List Frame} {texts : List Bytes} {s s' : σ} {c : Option ReplicationCheckpoint}
    {n : Nat}
    (h : Forall₂ (fun f t => f.encode = .ok t) frames texts) (hn : magic.length ≤ n)
    (hrestore : takeAll restore s ((frames.map delivered).take (framesInside texts n)) = some s') :
    readLog (startupApply restore) (s, c) ((fileOf texts).take n) =
      ⟨(s', (lastCheckpoint ((frames.map delivered).take (framesInside texts n)).flatten).or c),
        frameOffset texts (framesInside texts n), none⟩ := by
  rcases readLog_take (delivers_frames h) n with ⟨hstate, hrest, -⟩
  rcases hrest hn with ⟨hoffset, herr⟩
  rw [← hstate] at hrestore
  rw [readLog_fold herr (takeAll_startup hrestore), hoffset, hstate,
    recoverReplicationCheckpoint_eq]

/-- A log whose last frame is torn: the checkpoint of the frame before it stands. -/
theorem checkpoint_recovered_torn : ∃ texts, Forall₂ (fun f t => Frame.encode f = .ok t)
      [.generic (some [{ replication := some { offset := 7 } }]), .plainSet [1] [2]] texts ∧
    (readLog (startupApply collect) ([], none) ((fileOf texts).take 70)).state.2 =
      some { offset := 7 } := by
  have h : Forall₂ (fun f t => Frame.encode f = .ok t)
      [.generic (some [{ replication := some { offset := 7 } }]), .plainSet [1] [2]] _ :=
    .cons rfl (.cons rfl .nil)
  refine ⟨_, h, ?_⟩
  rw [@checkpoint_recovered _ collect _ _ [] _ none 70 h (by decide) rfl]
  decide +kernel

end Persistence
end SnugKV
