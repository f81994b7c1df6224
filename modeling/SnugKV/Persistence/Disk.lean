import SnugKV.Persistence.Log

/-!
# Disk — what is written and what is synced

* `Numbered`, `total`, `body` — the appends of a history, their sequence numbers and their text;
* `File.Grows` — a file that was only appended to keeps what it held;
* `Disk.Wrote` — file and writer together hold exactly some appends; `Disk.writeFrames_spec` and
  `Disk.flushSync_wrote` say what the loops over it do.
-/

namespace SnugKV
namespace Persistence

open Lib List Disk

/-! ## Histories -/

def total (h : List Entry) : Nat :=
  (h.map Entry.count).sum

def body (h : List Entry) : Bytes :=
  h.flatMap Entry.data

/-- The text starts with the base of the file and the appends `h` that it does not stand for. -/
def File.Holds (f : File) (text : Bytes) (h : List Entry) : Prop :=
  f.base ++ body (h.drop f.since) <+: text

@[simp] theorem total_nil : total [] = 0 := rfl

@[simp] theorem total_cons (e : Entry) (h : List Entry) : total (e :: h) = e.count + total h := by
  simp [total]

@[simp] theorem total_singleton (e : Entry) : total [e] = e.count := by
  simp [total]

@[simp] theorem total_append (g h : List Entry) : total (g ++ h) = total g + total h := by
  simp [total]

@[simp] theorem body_append (g h : List Entry) : body (g ++ h) = body g ++ body h := by
  simp [body]

@[simp] theorem body_singleton (e : Entry) : body [e] = e.data := by
  simp [body]

variable {i n : Nat}

theorem total_take_mono (h : List Entry) {j : Nat} (hij : i ≤ j) :
    total (h.take i) ≤ total (h.take j) := by
  have hsplit : h.take i = (h.take j).take i := by
    rw [take_take, min_eq_left hij]
  calc total (h.take i) ≤ total (h.take i) + total ((h.take j).drop i) := Nat.le_add_right _ _
    _ = total ((h.take j).take i ++ (h.take j).drop i) := by rw [hsplit, total_append]
    _ = total (h.take j) := by rw [take_append_drop]

variable {h hist w : List Entry}

/-- Sequence numbers grow, so they tell the appends apart. -/
theorem lt_of_total_take_le {d : Nat} (hi : i < h.length)
    (hle : total (h.take (i + 1)) ≤ total (h.take d)) : i < d := by
  by_contra hd
  have hmono := total_take_mono h (Nat.le_of_not_lt hd)
  rw [take_succ_eq_append_getElem hi, total_append, total_singleton] at hle
  have := h[i].pos
  omega

theorem body_drop_append {g : List Entry} (hn : n ≤ g.length) :
    body ((g ++ h).drop n) = body (g.drop n) ++ body h := by
  rw [drop_append_of_le_length hn, body_append]

/-- Frames whose sequence numbers follow `n`. -/
def Numbered : Nat → List QueuedFrame → Prop
  | _, [] => True
  | n, f :: fs => f.seq = n + f.entry.count ∧ Numbered f.seq fs

theorem numbered_append {fs gs : List QueuedFrame} :
    Numbered n (fs ++ gs) ↔ Numbered n fs ∧ Numbered (n + total (fs.map QueuedFrame.entry)) gs := by
  induction fs generalizing n with
  | nil => simp [Numbered]
  | cons f fs ih =>
    rw [cons_append, Numbered, Numbered, ih, map_cons, total_cons]
    constructor
    · rintro ⟨hseq, hfs, hgs⟩
      refine ⟨⟨hseq, hfs⟩, ?_⟩
      rwa [← add_assoc, ← hseq]
    · rintro ⟨⟨hseq, hfs⟩, hgs⟩
      refine ⟨hseq, hfs, ?_⟩
      rwa [← add_assoc, ← hseq] at hgs

theorem numbered_seq_le {fs : List QueuedFrame} (h : Numbered n fs) {f : QueuedFrame}
    (hf : f ∈ fs) : f.seq ≤ n + total (fs.map QueuedFrame.entry) := by
  induction fs generalizing n with
  | nil => cases hf
  | cons g fs ih =>
    have hseq := h.1
    rw [map_cons, total_cons]
    rcases mem_cons.1 hf with rfl | hf
    · omega
    · have := ih h.2 hf
      omega

theorem eq_nil_of_total_eq_zero (hzero : total h = 0) : h = [] := by
  cases h with
  | nil => rfl
  | cons e h =>
    rw [total_cons] at hzero
    have := e.pos
    omega

/-! ## Files and disks -/

/-- More was written, and perhaps synced. -/
structure File.Grows (f f' : File) : Prop where
  base : f'.base = f.base
  since : f'.since = f.since
  content : f.content <+: f'.content
  synced : f.synced ≤ f'.synced
  synced_le : f'.synced ≤ f'.content.length

variable {f : File} {d : Disk} {o : Outcome}

theorem File.Grows.refl (h : f.synced ≤ f.content.length) : f.Grows f :=
  ⟨rfl, rfl, prefix_rfl, le_rfl, h⟩

theorem File.Grows.trans {g k : File} (h : f.Grows g) (h' : g.Grows k) : f.Grows k :=
  ⟨h'.base.trans h.base, h'.since.trans h.since, h.content.trans h'.content,
    h.synced.trans h'.synced, h'.synced_le⟩

theorem File.Grows.holds {f' : File} (h : f.Grows f')
    (hold : f.Holds f.content hist) : f'.Holds f'.content hist := by
  unfold File.Holds at *
  rw [h.base, h.since]
  exact hold.trans h.content

theorem File.Grows.holds_synced {f' : File} (h : f.Grows f') (hle : f.synced ≤ f.content.length)
    (hold : f.Holds (f.content.take f.synced) hist) :
    f'.Holds (f'.content.take f'.synced) hist := by
  unfold File.Holds at *
  rw [h.base, h.since]
  refine hold.trans ?_
  rcases h.content with ⟨more, hmore⟩
  have hsame : f'.content.take f.synced = f.content.take f.synced := by
    rw [← hmore, take_append_of_le_length hle]
  rw [← hsame, ← min_eq_left h.synced, ← take_take]
  exact take_prefix _ _

theorem File.grows_append (h : f.synced ≤ f.content.length) (more : Bytes) :
    f.Grows { f with content := f.content ++ more } :=
  ⟨rfl, rfl, prefix_append _ _, le_rfl, by
    simp only [length_append]
    omega⟩

/-- File and writer together hold exactly the appends `w`. -/
structure Disk.Wrote (d : Disk) (w : List Entry) : Prop where
  content : d.file.content ++ d.pending = d.file.base ++ body (w.drop d.file.since)
  since : d.file.since ≤ w.length
  seq : d.writtenSeq = total w

theorem Disk.write_grows (h : d.file.synced ≤ d.file.content.length) (data : Bytes) (o : Outcome) :
    d.file.Grows (d.write data o).file :=
  File.grows_append h _

theorem Disk.write_content (d : Disk) (data : Bytes) (o : Outcome) :
    (d.write data o).file.content ++ (d.write data o).pending =
      d.file.content ++ d.pending ++ data := by
  simp [write, append_assoc]

theorem Disk.flush_grows (h : d.file.synced ≤ d.file.content.length) (o : Outcome) :
    d.file.Grows (d.flush o).file := by
  unfold flush
  split
  · exact File.grows_append h _
  · exact File.grows_append h _

theorem Disk.flush_ok (hok : (d.flush o).failed = false) : o.ok = true ∧ d.flush o = { d with
      file := { d.file with content := d.file.content ++ d.pending }, pending := [] } := by
  unfold flush at hok ⊢
  split at hok
  next hout => exact ⟨hout, if_pos hout⟩
  next => cases hok

theorem Disk.flush_wrote (h : d.Wrote w)
    (hok : (d.flush o).failed = false) : (d.flush o).Wrote w ∧ (d.flush o).pending = [] := by
  rw [(flush_ok hok).2]
  exact ⟨⟨by simpa using h.content, h.since, h.seq⟩, rfl⟩

theorem Disk.flushSync_grows (h : d.file.synced ≤ d.file.content.length) (o : Outcome)
    (sync : Bool) :
    d.file.Grows (d.flushSync o sync).file := by
  have hflush := Disk.flush_grows h o
  unfold Disk.flushSync
  split
  · exact hflush
  · refine hflush.trans ?_
    unfold Disk.sync
    split
    · exact ⟨rfl, rfl, prefix_rfl, hflush.synced_le, le_rfl⟩
    · exact File.Grows.refl hflush.synced_le

theorem Disk.flushSync_ok {sync : Bool} (hok : (d.flushSync o sync).failed = false) :
    (o.ok = true ∧ sync = true) ∧ d.flushSync o sync = { d with
      file := { d.file with
        content := d.file.content ++ d.pending
        synced := (d.file.content ++ d.pending).length }
      pending := [] } := by
  unfold Disk.flushSync at hok ⊢
  by_cases hflush : (d.flush o).failed = true
  · rw [if_pos hflush, hflush] at hok
    cases hok
  · rw [if_neg hflush] at hok ⊢
    rcases Disk.flush_ok (Bool.eq_false_iff.2 hflush) with ⟨hout, hd⟩
    unfold Disk.sync at hok ⊢
    split at hok
    next hsync => exact ⟨⟨hout, hsync⟩, by rw [if_pos hsync, hd]⟩
    next => cases hok

/-- After them, the synced part of the file is all that was written. -/
theorem Disk.flushSync_wrote (h : d.Wrote w) {sync : Bool}
    (hok : (d.flushSync o sync).failed = false) : (d.flushSync o sync).Wrote w ∧
      (d.flushSync o sync).file.Holds
        ((d.flushSync o sync).file.content.take (d.flushSync o sync).file.synced) w := by
  rw [(flushSync_ok hok).2]
  refine ⟨⟨by simpa using h.content, h.since, h.seq⟩, ?_⟩
  unfold File.Holds
  rw [take_length, h.content]

theorem Disk.flushSync_seqs (d : Disk) (o : Outcome) (sync : Bool) :
    (d.flushSync o sync).writtenSeq = d.writtenSeq ∧
      (d.flushSync o sync).syncedSeq = d.syncedSeq := by
  unfold Disk.flushSync Disk.sync Disk.flush
  constructor <;> split_ifs <;> rfl

theorem Disk.markWritten_failed (d : Disk) : d.markWritten.failed = d.failed := by
  unfold markWritten
  split <;> rfl

theorem Disk.writeFrames_spec (fs : List QueuedFrame) : ∀ {d : Disk} {w : List Entry}
    {os : List Outcome}, os.length = fs.length → d.file.synced ≤ d.file.content.length →
      d.failed = false → d.Wrote w → Numbered (total w) fs →
        d.file.Grows (d.writeFrames fs os).file ∧
          (d.writeFrames fs os).syncedSeq = d.syncedSeq ∧
          (d.writtenSeq ≤ (d.writeFrames fs os).writtenSeq ∧
            (d.writeFrames fs os).writtenSeq ≤ total w + total (fs.map QueuedFrame.entry)) ∧
          ((d.writeFrames fs os).failed = false →
            (d.writeFrames fs os).Wrote (w ++ fs.map QueuedFrame.entry)) := by
  induction fs with
  | nil =>
    intro d w os _ hle hfailed hw _
    rw [writeFrames]
    exact ⟨File.Grows.refl hle, rfl, ⟨le_rfl, hw.seq.le⟩, fun _ => by simpa using hw⟩
  | cons f fs ih =>
    intro d w os hlen hle hfailed hw hnum
    cases os with
    | nil => cases hlen
    | cons o os =>
      have hgrows := write_grows hle f.entry.data o
      rw [writeFrames]
      by_cases hout : (d.write f.entry.data o).failed = true
      · rw [if_pos hout]
        refine ⟨hgrows, rfl, ⟨le_rfl, hw.seq.le.trans (Nat.le_add_right _ _)⟩, fun hok => ?_⟩
        rw [hout] at hok
        cases hok
      · rw [if_neg hout]
        have hseq : max (d.write f.entry.data o).writtenSeq f.seq = total (w ++ [f.entry]) := by
          have hwritten : (d.write f.entry.data o).writtenSeq = total w := hw.seq
          have hnext := hnum.1
          rw [hwritten, total_append, total_singleton]
          omega
        have hstep : ((d.write f.entry.data o).wroteSeq f.seq).Wrote (w ++ [f.entry]) := by
          refine ⟨?_, ?_, hseq⟩
          · change (d.write f.entry.data o).file.content ++ (d.write f.entry.data o).pending =
              d.file.base ++ body ((w ++ [f.entry]).drop d.file.since)
            rw [write_content, hw.content, body_drop_append hw.since, body_singleton,
              append_assoc]
          · exact hw.since.trans (by simp)
        have hnumbered : Numbered (total (w ++ [f.entry])) fs := by
          have hnext := hnum.2
          rw [hnum.1] at hnext
          simpa using hnext
        rcases @ih ((d.write f.entry.data o).wroteSeq f.seq) _ os (Nat.succ.inj hlen)
          hgrows.synced_le (Bool.eq_false_iff.2 hout) hstep hnumbered with
          ⟨hfile, hsynced, ⟨hle', hmore⟩, hrest⟩
        refine ⟨hgrows.trans hfile, hsynced, ⟨(le_max_left _ _).trans hle', ?_⟩, fun hok => ?_⟩
        · rwa [map_cons, total_cons, ← add_assoc, ← total_singleton, ← total_append]
        rw [map_cons, ← singleton_append, ← append_assoc]
        exact hrest hok

end Persistence
end SnugKV
