import SnugKV.Lib.Run
import SnugKV.Persistence.Disk

/-!
# Rewrite safety — acknowledged appends stay in the file at the log path

* `Safe` — what the file at the log path holds, for every append acknowledged as durable;
* `Inv` — the invariant of the machine: what is written, what is on its way and what the rewrite
  buffer holds, as long as nothing has failed;
* `Goes` — what one action does: it keeps the invariant, and no sequence number falls;
* `rewrite_safe` — runs with one rewrite, in which no step behind the rename fails;
* `sequenced` — the sequence numbers and the acknowledgements of every run.
-/

namespace SnugKV
namespace Persistence

open Lib List Log Disk

/-! ## The property -/

/-- The sequence number of append `i`. -/
def Log.seqAt (l : Log) (i : Nat) : Nat :=
  total (l.history.take (i + 1))

/-- Append `i` is acknowledged as durable: it returned under the policy `always`, or the synced
sequence number has reached it. -/
def Log.Durable (l : Log) (i : Nat) : Prop :=
  i < l.history.length ∧ (l.seqAt i ≤ l.syncedSeq ∨ (l.seqAt i, true) ∈ l.done)

/-- Append `i` returned under the policy `no`. -/
def Log.Returned (l : Log) (i : Nat) : Prop :=
  i < l.history.length ∧ l.seqAt i ∈ l.returned

/-- The file at the log path starts with its base, followed by everything admitted since up to
any acknowledged append; for a durable one this is so of its synced part. -/
structure Safe (l : Log) : Prop where
  durable : ∀ i, l.Durable i →
    l.pathFile.Holds (l.pathFile.content.take l.pathFile.synced) (l.history.take (i + 1))
  returned : ∀ i, l.Returned i → l.pathFile.Holds l.pathFile.content (l.history.take (i + 1))

/-! ## The invariant -/

/-- The frame that is admitted but not yet sent. -/
def sending : Option (Task × Bool) → List QueuedFrame
  | some (.send f, _) => [f]
  | _ => []

/-- The frame that is admitted but not yet in the rewrite buffer. -/
def held : Option (Task × Bool) → List QueuedFrame
  | some (.send f, _) | some (.sent f, _) | some (.await f, _) => [f]
  | _ => []

def Log.inflight (l : Log) : List QueuedFrame :=
  l.batch ++ l.queue ++ sending l.holder

@[simp] theorem sending_none : sending none = [] := rfl

@[simp] theorem held_none : held none = [] := rfl

/-- What is admitted and what is answered. -/
def Log.ledger (l : Log) : Option File × Nat × List Entry × List (Nat × Bool) × List Nat :=
  (l.atPath, l.appendedSeq, l.history, l.done, l.returned)

/-- What holds with and without a failure.  The log is `intact` while the file at the log path is
the one it writes to. -/
structure Kept (intact : Bool) (l : Log) : Prop where
  here : intact = true → l.atPath = none
  appended : l.appendedSeq = total l.history
  written : l.writtenSeq ≤ l.appendedSeq
  synced : l.syncedSeq ≤ l.writtenSeq
  synced_le : l.file.synced ≤ l.file.content.length
  done : ∀ q, (q, true) ∈ l.done → q ≤ l.syncedSeq
  refused : ∀ q, (q, false) ∈ l.done → l.failed = true
  durable : ∃ d ≤ l.history.length, l.syncedSeq ≤ total (l.history.take d) ∧
    (0 < d → l.file.Holds (l.file.content.take l.file.synced) (l.history.take d))
  returned : ∃ m ≤ l.history.length, (∀ q ∈ l.returned, q ≤ total (l.history.take m)) ∧
    (0 < m → l.file.Holds l.file.content (l.history.take m))

/-- The rewrite buffer holds the appends since `BeginRewrite`, but for the one still held. -/
def Log.Buffered (l : Log) : Prop :=
  ∃ b, l.history = b ++ (held l.holder).map QueuedFrame.entry ∧ l.begunAt ≤ b.length ∧
    l.rewriteBuffer.flatten = body (b.drop l.begunAt)

/-- What holds before a failure: `w` is written, the rest is on its way. -/
structure Live (l : Log) (w : List Entry) : Prop where
  split : l.history = w ++ l.inflight.map QueuedFrame.entry
  wrote : l.toDisk.Wrote w
  numbered : Numbered (total w) l.inflight
  returned : ∀ q ∈ l.returned, q ≤ total w
  buffered : l.rewriteActive = true → l.Buffered
  drained : ∀ t, l.holder = some (t, true) → l.inflight = []

structure Inv (intact : Bool) (l : Log) : Prop where
  kept : Kept intact l
  finishing : ∀ text drained, l.holder = some (.finish text, drained) → l.rewriteActive = true
  live : l.failed = false → ∃ w, Live l w

/-- What a step leads to: the sequence numbers do not fall, and an append is answered with success
only where `acks` holds. -/
structure Goes (intact : Bool) (acks : Prop) (l l' : Log) : Prop where
  inv : Inv intact l'
  appended : l.appendedSeq ≤ l'.appendedSeq
  written : l.writtenSeq ≤ l'.writtenSeq
  synced : l.syncedSeq ≤ l'.syncedSeq
  answered : ∀ q, (q, true) ∈ l'.done → (q, true) ∈ l.done ∨ acks

variable {intact : Bool} {acks : Prop} {l l' : Log} {t : Task} {flush : Outcome} {sync : Bool}
  {writes : List Outcome} {actions : List Action}

theorem Inv.opened (policy : Policy) (content : Bytes) :
    Inv intact (Log.opened policy content) := by
  constructor
  · refine ⟨fun _ => rfl, rfl, le_rfl, le_rfl, Nat.zero_le _, by simp [Log.opened],
      by simp [Log.opened], ⟨0, Nat.zero_le _, Nat.zero_le _, ?_⟩,
      ⟨0, Nat.zero_le _, by simp [Log.opened], ?_⟩⟩
    · exact fun h => absurd h (Nat.lt_irrefl 0)
    · exact fun h => absurd h (Nat.lt_irrefl 0)
  · exact fun text drained h => (by cases h)
  · intro _
    refine ⟨[], rfl, ⟨?_, le_rfl, rfl⟩, trivial, by simp [Log.opened], fun h => (by cases h),
      fun t h => (by cases h)⟩
    simp [Log.opened, body]

theorem Inv.safe (h : Inv true l) : Safe l := by
  have hfile : l.pathFile = l.file := by simp [pathFile, h.kept.here]
  rcases h.kept.durable with ⟨d, _, hacked, hholds⟩
  rcases h.kept.returned with ⟨m, _, hreturned, hwritten⟩
  -- an acknowledged append is among the first `n`, and a shorter history is held, too
  have hshort : ∀ {text : Bytes} {i n : Nat}, i < n → l.file.Holds text (l.history.take n) →
      l.file.Holds text (l.history.take (i + 1)) := by
    intro text i n hi hn
    have hsplit : l.history.take (i + 1) = (l.history.take n).take (i + 1) := by
      rw [take_take, min_eq_left hi]
    refine IsPrefix.trans ?_ hn
    rw [hsplit, prefix_append_right_inj]
    rcases (( take_prefix (i + 1) (l.history.take n)).drop l.file.since) with ⟨more, hmore⟩
    exact ⟨body more, by rw [← body_append, hmore]⟩
  constructor
  · rintro i ⟨hi, hack⟩
    rw [hfile]
    have hseq : l.seqAt i ≤ l.syncedSeq := by
      rcases hack with hack | hack
      · exact hack
      · exact h.kept.done _ hack
    have hd := lt_of_total_take_le hi (hseq.trans hacked)
    exact hshort hd (hholds (by omega))
  · rintro i ⟨hi, hack⟩
    rw [hfile]
    have hm := lt_of_total_take_le hi (hreturned _ hack)
    exact hshort hm (hwritten (by omega))

/-! ## What the actions keep -/

theorem Goes.refl (h : Inv intact l) : Goes intact acks l l :=
  ⟨h, le_rfl, le_rfl, le_rfl, fun _ hq => .inl hq⟩

theorem Goes.bind {k : Log} (h : Goes intact acks l k)
    (hnext : Inv intact k → Goes intact acks k l') : Goes intact acks l l' := by
  have h' := hnext h.inv
  exact ⟨h'.inv, h.appended.trans h'.appended, h.written.trans h'.written,
    h.synced.trans h'.synced, fun q hq => (h'.answered q hq).elim (h.answered q) .inr⟩

/-- Nothing is admitted and nothing is answered. -/
theorem Inv.goes (h : Inv intact l') (hledger : l'.ledger = l.ledger)
    (hwritten : l.writtenSeq ≤ l'.writtenSeq) (hsynced : l.syncedSeq ≤ l'.syncedSeq) :
    Goes intact acks l l' := by
  simp only [ledger, Prod.mk.injEq] at hledger
  exact ⟨h, hledger.2.1.ge, hwritten, hsynced, fun q hq => .inl (hledger.2.2.2.1 ▸ hq)⟩

theorem Kept.inv (h : Kept intact l) (hfailed : l.failed = true)
    (hfinishing : ∀ text drained, l.holder = some (.finish text, drained) →
      l.rewriteActive = true) : Inv intact l :=
  ⟨h, hfinishing, fun hok => absurd (hfailed.symm.trans hok) (by decide)⟩

/-- The file and the history grow.  What is synced stays as it was, or it is what the synced part
of the file holds. -/
theorem Kept.next (h : Kept intact l) (hpath : l'.atPath = l.atPath)
    (happended : l'.appendedSeq = total l'.history) (hhistory : l.history <+: l'.history)
    (hdone : l'.done = l.done) (hreturned : l'.returned = l.returned)
    (hfailed : l.failed = true → l'.failed = true) (hfile : l.file.Grows l'.file)
    (hwritten : l'.writtenSeq ≤ l'.appendedSeq) (hle : l'.syncedSeq ≤ l'.writtenSeq)
    (hsynced : l'.syncedSeq = l.syncedSeq ∨ l.syncedSeq ≤ l'.syncedSeq ∧
      ∃ w, w <+: l'.history ∧ l'.syncedSeq = total w ∧
        l'.file.Holds (l'.file.content.take l'.file.synced) w) : Kept intact l' := by
  have htake : ∀ {n : Nat}, n ≤ l.history.length → l'.history.take n = l.history.take n := by
    rcases hhistory with ⟨more, hmore⟩
    intro n hn
    rw [← hmore, take_append_of_le_length hn]
  refine ⟨fun hi => hpath.trans (h.here hi), happended, hwritten, hle, hfile.synced_le,
    fun q hq => ?_, fun q hq => hfailed (h.refused q (hdone ▸ hq)), ?_, ?_⟩
  · refine (h.done q (hdone ▸ hq)).trans ?_
    rcases hsynced with hsame | ⟨hmore, -⟩
    · exact hsame.ge
    · exact hmore
  · rcases hsynced with hsame | ⟨-, w, hw, hseq, hholds⟩
    · rcases h.durable with ⟨d, hd, hacked, hholds⟩
      refine ⟨d, hd.trans hhistory.length_le, ?_, fun hpos => ?_⟩
      · rw [htake hd, hsame]
        exact hacked
      · rw [htake hd]
        exact hfile.holds_synced h.synced_le (hholds hpos)
    · refine ⟨w.length, hw.length_le, ?_⟩
      rw [← prefix_iff_eq_take.1 hw]
      exact ⟨hseq.le, fun _ => hholds⟩
  · rcases h.returned with ⟨m, hm, hreturn, hholds⟩
    refine ⟨m, hm.trans hhistory.length_le, ?_, fun hpos => ?_⟩
    · rw [htake hm, hreturned]
      exact hreturn
    · rw [htake hm]
      exact hfile.holds (hholds hpos)

theorem Kept.grow (h : Kept intact l) (hledger : l'.ledger = l.ledger)
    (hfailed : l.failed = true → l'.failed = true) (hfile : l.file.Grows l'.file)
    (hwritten : l'.writtenSeq ≤ l.appendedSeq) (hmore : l.writtenSeq ≤ l'.writtenSeq)
    (hsynced : l'.syncedSeq = l.syncedSeq) : Kept intact l' := by
  simp only [ledger, Prod.mk.injEq] at hledger
  rcases hledger with ⟨hpath, happended, hhistory, hdone, hreturned⟩
  refine h.next hpath ?_ (hhistory ▸ prefix_rfl) hdone hreturned hfailed hfile ?_ ?_ (.inl hsynced)
  · rw [happended, hhistory, h.appended]
  · rwa [happended]
  · exact hsynced.le.trans (h.synced.trans hmore)

theorem Inv.turn (h : Inv intact l) (hledger : l'.ledger = l.ledger) (hdisk : l'.toDisk = l.toDisk)
    (hinflight : l'.inflight = l.inflight)
    (hfinishing : ∀ text drained, l'.holder = some (.finish text, drained) →
      l'.rewriteActive = true)
    (hbuffered : ∀ w, l.failed = false → Live l w → l'.rewriteActive = true → l'.Buffered)
    (hdrained : ∀ w t, Live l w → l'.holder = some (t, true) → l.inflight = []) :
    Goes intact acks l l' := by
  refine Inv.goes ⟨?_, hfinishing, fun hfailed => ?_⟩ hledger (by rw [hdisk]) (by rw [hdisk])
  · refine h.kept.grow hledger ?_ ?_ ?_ ?_ ?_
    all_goals rw [hdisk]
    · exact id
    · exact File.Grows.refl h.kept.synced_le
    · exact h.kept.written
  · simp only [ledger, Prod.mk.injEq] at hledger
    rcases hledger with ⟨-, -, hhistory, -, hreturned⟩
    rw [hdisk] at hfailed
    rcases h.live hfailed with ⟨w, hw⟩
    refine ⟨w, ?_, hdisk ▸ hw.wrote, hinflight ▸ hw.numbered, hreturned ▸ hw.returned,
      hbuffered w hfailed hw, fun t ht => ?_⟩
    · rw [hhistory, hinflight]
      exact hw.split
    · rw [hinflight]
      exact hdrained w t hw ht

theorem Inv.pass (h : Inv intact l) (hledger : l'.ledger = l.ledger) (hdisk : l'.toDisk = l.toDisk)
    (hbuffer : (l'.rewriteActive, l'.rewriteBuffer, l'.begunAt) =
      (l.rewriteActive, l.rewriteBuffer, l.begunAt))
    (hheld : held l'.holder = held l.holder) (hinflight : l'.inflight = l.inflight)
    (hfinishing : ∀ text drained, l'.holder = some (.finish text, drained) → l.rewriteActive = true)
    (hdrained : ∀ w t, Live l w → l'.holder = some (t, true) → l.inflight = []) :
    Goes intact acks l l' := by
  simp only [Prod.mk.injEq] at hbuffer
  rcases hbuffer with ⟨hactive, hbuffer, hbegun⟩
  have hhistory : l'.history = l.history := congrArg (·.2.2.1) hledger
  refine h.turn hledger hdisk hinflight (hactive ▸ hfinishing) (fun w _ hw hon => ?_) hdrained
  unfold Buffered
  rw [hhistory, hheld, hbuffer, hbegun]
  exact hw.buffered (hactive ▸ hon)

/-! ## Appending -/

section

variable (h : Inv intact l)

include h

theorem appendEncoded_goes (hholder : l.holder = none) (e : Entry) :
    Goes intact acks l (appendEncoded l e) := by
  have hinflight : l.inflight = l.batch ++ l.queue := by simp [inflight, hholder, sending]
  unfold appendEncoded
  by_cases hfailed : l.failed = true
  · rw [if_pos hfailed]
    exact .refl h
  · rw [if_neg hfailed]
    rcases h.live (Bool.eq_false_iff.2 hfailed) with ⟨w, hw⟩
    by_cases hpolicy : l.policy = .no
    · rw [if_pos hpolicy]
      refine h.pass rfl rfl rfl (by rw [hholder]; rfl) ?_ nofun nofun
      rw [hinflight]
      simp [inflight, sending]
    · rw [if_neg hpolicy]
      have happended := h.kept.appended
      refine ⟨⟨h.kept.next rfl ?_ ⟨[e], rfl⟩ rfl rfl id (File.Grows.refl h.kept.synced_le)
        (h.kept.written.trans (Nat.le_add_right _ _)) h.kept.synced (.inl rfl),
        fun _ _ ht => (by cases ht), fun _ => ⟨w, ?_, hw.wrote, ?_, hw.returned, fun hactive => ?_,
        fun _ ht => (by cases ht)⟩⟩, Nat.le_add_right _ _, le_rfl, le_rfl, fun _ hq => .inl hq⟩
      · rw [total_append, total_singleton, happended]
      · simp only [inflight, sending, map_append, ← append_assoc]
        rw [hw.split, hinflight]
        simp
      · rw [hw.split, total_append] at happended
        have hnext : Numbered (total w) (l.batch ++ l.queue ++
            [⟨e, l.appendedSeq + e.count, decide (l.policy = .always)⟩]) := by
          rw [numbered_append, ← hinflight]
          exact ⟨hw.numbered, by rw [happended], trivial⟩
        exact hnext
      · rcases hw.buffered hactive with ⟨b, hhistory, hb⟩
        have heq : l.history = b := by simpa [hholder, held] using hhistory
        exact ⟨b, by simp [held, heq], hb⟩

theorem append_goes {f : Frame} (hs : append l f = some l') : Goes intact acks l l' := by
  unfold append at hs
  split at hs
  · cases hs
  next hholder =>
    split at hs
    · cases hs
      exact .refl h
    · cases hs
      exact appendEncoded_goes h hholder _

theorem send_goes (hs : send l = some l') : Goes intact acks l l' := by
  unfold send at hs
  split at hs
  next f drained hholder =>
    split at hs
    · cases hs
      exact h.pass rfl rfl rfl (by rw [hholder]; rfl) (by simp [inflight, sending, hholder])
        nofun nofun
    · cases hs
  · cases hs

theorem bufferRewriteFrame_goes {f : QueuedFrame} (hheld : held l.holder = [f])
    (hsending : sending l.holder = []) :
    Goes intact acks l (l.bufferRewriteFrame f.entry.data).release := by
  unfold bufferRewriteFrame
  by_cases hactive : l.rewriteActive = true
  · rw [if_pos hactive]
    refine h.turn rfl rfl ?_ nofun (fun w _ hw _ => ?_) nofun
    · simp [inflight, hsending, release]
    · rcases hw.buffered hactive with ⟨b, hhistory, hb, hbuffer⟩
      rw [hheld] at hhistory
      refine ⟨l.history, by simp [release], ?_, ?_⟩
      · rw [hhistory, length_append]
        exact hb.trans (Nat.le_add_right _ _)
      · change (l.rewriteBuffer ++ [f.entry.data]).flatten = body (l.history.drop l.begunAt)
        rw [hhistory, body_drop_append hb, flatten_append, hbuffer]
        simp
  · rw [if_neg hactive]
    refine h.turn rfl rfl ?_ nofun (fun _ _ _ hon => absurd hon hactive) nofun
    simp [inflight, hsending, release]

/-- The lock is released when no frame is held, or when the rewrite is off or the log failed. -/
theorem release_goes (hsending : sending l.holder = [])
    (hheld : held l.holder = [] ∨ l.rewriteActive = false ∨ l.failed = true) :
    Goes intact acks l l.release := by
  have hinflight : l.release.inflight = l.inflight := by
    simp [inflight, hsending, release]
  rcases hheld with hheld | hoff | hbad
  · exact h.pass rfl rfl rfl hheld.symm hinflight nofun nofun
  · refine h.turn rfl rfl hinflight nofun (fun w _ hw hactive => ?_) nofun
    exact absurd (hactive.symm.trans hoff) (by decide)
  · refine h.turn rfl rfl hinflight nofun (fun w hfailed _ _ => ?_) nofun
    exact absurd (hbad.symm.trans hfailed) (by decide)

theorem stopRewrite_goes (hsending : sending l.holder = []) :
    Goes intact acks l l.stopRewrite.release := by
  refine h.turn rfl rfl ?_ nofun nofun nofun
  simp [inflight, hsending, release, stopRewrite]

theorem buffer_goes (hs : buffer l = some l') : Goes intact acks l l' := by
  unfold buffer at hs
  split at hs
  next f drained hholder =>
    have hsending : sending l.holder = [] := by rw [hholder]; rfl
    have hheld : held l.holder = [f] := by rw [hholder]; rfl
    split at hs
    · cases hs
      exact bufferRewriteFrame_goes h hheld hsending
    · split at hs
      next hactive =>
        cases hs
        exact h.pass rfl rfl rfl hheld.symm (by simp [inflight, hholder, sending]) nofun nofun
      next hactive =>
        cases hs
        exact release_goes h hsending (.inr (.inl (Bool.eq_false_iff.2 hactive)))
  · cases hs

theorem awaited_goes (hs : awaited l = some l') : Goes intact acks l l' := by
  unfold awaited at hs
  split at hs
  next f drained hholder =>
    have hsending : sending l.holder = [] := by rw [hholder]; rfl
    have hheld : held l.holder = [f] := by rw [hholder]; rfl
    split at hs
    · cases hs
    · cases hs
      exact bufferRewriteFrame_goes h hheld hsending
    next hlookup =>
      -- the frame was refused, so the log has failed
      cases hs
      rcases lookup_eq_some_iff.1 hlookup with ⟨l1, l2, hdone, _⟩
      have hmem : (f.seq, false) ∈ l.done := by simp [hdone]
      exact release_goes h hsending (.inr (.inr (h.kept.refused f.seq hmem)))
  · cases hs

end

/-! ## Draining -/

/-- Once the written sequence number has caught up, nothing is on its way. -/
theorem Inv.inflight_nil (h : Inv intact l) {w : List Entry} (hw : Live l w)
    (hle : l.appendedSeq ≤ l.writtenSeq) : l.inflight = [] := by
  refine map_eq_nil_iff.1 (eq_nil_of_total_eq_zero ?_ : l.inflight.map QueuedFrame.entry = [])
  have happended := h.kept.appended
  rw [hw.split, total_append] at happended
  have := hw.wrote.seq
  omega

theorem Task.held_of_drains (h : t.drains = true) (drained : Bool) :
    held (some (t, drained)) = [] ∧ sending (some (t, drained)) = [] := by
  cases t <;> first | exact ⟨rfl, rfl⟩ | cases h

theorem leave_goes (h : Inv intact l) {drained : Bool} (hholder : l.holder = some (t, drained))
    (ht : t.drains = true) :
    Goes intact acks l l.release ∧ Goes intact acks l l.stopRewrite.release := by
  have hnone := Task.held_of_drains ht drained
  rw [← hholder] at hnone
  exact ⟨release_goes h hnone.2 (.inl hnone.1), stopRewrite_goes h hnone.2⟩

theorem giveUp_goes (h : Inv intact l) {drained : Bool} (hholder : l.holder = some (t, drained))
    (ht : t.drains = true) : Goes intact acks l (l.giveUp t).release := by
  cases t with
  | finish text => exact (leave_goes h hholder ht).2
  | _ => exact (leave_goes h hholder ht).1

theorem drain_goes (h : Inv intact l) (hs : drain l = some l') : Goes intact acks l l' := by
  unfold drain at hs
  split at hs
  next t hholder =>
    split at hs
    · cases hs
    next ht =>
      have hdrains : t.drains = true := by simpa using ht
      split at hs
      · cases hs
        exact giveUp_goes h hholder hdrains
      · split at hs
        next hle =>
          cases hs
          rcases Task.held_of_drains hdrains false with ⟨hheld, hsending⟩
          rcases Task.held_of_drains hdrains true with ⟨hheld', hsending'⟩
          rw [← hholder] at hheld hsending
          refine h.pass rfl rfl rfl (hheld'.trans hheld.symm) ?_ (fun text _ ht => ?_)
            (fun w _ hw _ => h.inflight_nil hw hle)
          · simp only [inflight, hsending, hsending']
          · cases ht
            exact h.finishing _ _ hholder
        · cases hs
  · cases hs

/-! ## The sync loop -/

section

variable (h : Inv intact l)

include h

theorem receive_goes (hs : receive l = some l') : Goes intact acks l l' := by
  unfold receive at hs
  split at hs
  · cases hs
  next f rest hqueue =>
    split at hs
    · cases hs
      exact h.pass rfl rfl rfl rfl (by simp [inflight, hqueue]) h.finishing
        fun w t hw => hw.drained t
    · cases hs

theorem flushSync_goes (hfailed : l.failed = false) (flush : Outcome) (sync : Bool) :
    Goes intact acks l { l with toDisk := (l.toDisk.flushSync flush sync).markWritten } := by
  rcases h.live hfailed with ⟨w, hw⟩
  have hgrows := flushSync_grows h.kept.synced_le flush sync
  rcases flushSync_seqs l.toDisk flush sync with ⟨hwritten, hsynced⟩
  have hnot : ∀ {p : Prop}, l.failed = true → p :=
    fun hf => absurd (hfailed.symm.trans hf) (by decide)
  by_cases hbad : (l.toDisk.flushSync flush sync).failed = true
  · have hmark : (l.toDisk.flushSync flush sync).markWritten = l.toDisk.flushSync flush sync := by
      rw [markWritten, if_pos hbad]
    rw [hmark]
    refine Inv.goes (Kept.inv ?_ hbad h.finishing) rfl hwritten.ge hsynced.ge
    exact h.kept.grow rfl hnot hgrows (hwritten.le.trans h.kept.written) hwritten.ge hsynced
  · have hmax : max (l.toDisk.flushSync flush sync).syncedSeq
        (l.toDisk.flushSync flush sync).writtenSeq = l.writtenSeq := by
      rw [hwritten, hsynced, max_eq_right h.kept.synced]
    have hmark : (l.toDisk.flushSync flush sync).markWritten =
        { l.toDisk.flushSync flush sync with syncedSeq := l.writtenSeq } := by
      rw [markWritten, if_neg hbad, hmax]
    rw [hmark]
    rcases flushSync_wrote hw.wrote (Bool.eq_false_iff.2 hbad) with ⟨hwrote, hholds⟩
    refine Inv.goes ⟨?_, h.finishing, fun _ => ⟨w, { hw with wrote := ?_ }⟩⟩ rfl hwritten.ge
      h.kept.synced
    · exact h.kept.next rfl h.kept.appended prefix_rfl rfl rfl hnot hgrows
        (hwritten.le.trans h.kept.written) hwritten.ge
        (.inr ⟨h.kept.synced, w, ⟨_, hw.split.symm⟩, hw.wrote.seq, hholds⟩)
    · exact ⟨hwrote.content, hwrote.since, hwrote.seq⟩

theorem tick_goes (hs : tick l flush sync = some l') : Goes intact acks l l' := by
  unfold tick at hs
  split at hs
  · cases hs
  · split at hs
    · cases hs
      exact .refl h
    next hok =>
      cases hs
      exact flushSync_goes h (Bool.eq_false_iff.2 fun hf => hok (.inl hf)) flush sync

theorem writeFrames_goes (hfailed : l.failed = false)
    (hlen : writes.length = l.batch.length) : Goes intact acks l
      { l with toDisk := l.toDisk.writeFrames l.batch writes, batch := [] } := by
  rcases h.live hfailed with ⟨w, hw⟩
  have hnumbered := hw.numbered
  have hsplit := hw.split
  rw [inflight, append_assoc, numbered_append] at hnumbered
  rw [inflight, append_assoc, map_append, ← append_assoc] at hsplit
  rcases writeFrames_spec l.batch hlen h.kept.synced_le hfailed hw.wrote hnumbered.1 with
    ⟨hgrows, hsynced, ⟨hmore, hle⟩, hwrote⟩
  refine Inv.goes ⟨h.kept.grow rfl (fun hf => ?_) hgrows ?_ hmore hsynced, h.finishing,
    fun hok => ?_⟩ rfl hmore hsynced.ge
  · exact absurd (hfailed.symm.trans hf) (by decide)
  · rw [h.kept.appended, hsplit, total_append, total_append]
    exact hle.trans (Nat.le_add_right _ _)
  · refine ⟨w ++ l.batch.map QueuedFrame.entry, hsplit, hwrote hok, ?_, fun q hq => ?_,
      hw.buffered, fun t ht => ?_⟩
    · rw [total_append]
      exact hnumbered.2
    · rw [total_append]
      exact (hw.returned q hq).trans (Nat.le_add_right _ _)
    · have hnil := hw.drained t ht
      simp only [inflight, append_eq_nil_iff] at hnil ⊢
      exact ⟨⟨trivial, hnil.1.2⟩, hnil.2⟩

theorem done_goes {news : List (Nat × Bool)}
    (hgood : ∀ q, (q, true) ∈ news → q ≤ l.syncedSeq ∧ acks)
    (hbad : ∀ q, (q, false) ∈ news → l.failed = true) :
    Goes intact acks l { l with done := l.done ++ news } := by
  refine ⟨⟨{ h.kept with done := fun q hq => ?_, refused := fun q hq => ?_ }, h.finishing,
    fun hfailed => ?_⟩, le_rfl, le_rfl, le_rfl, fun q hq => ?_⟩
  · exact (mem_append.1 hq).elim (h.kept.done q) fun hq => (hgood q hq).1
  · exact (mem_append.1 hq).elim (h.kept.refused q) (hbad q)
  · rcases h.live hfailed with ⟨w, hw⟩
    exact ⟨w, { hw with }⟩
  · exact (mem_append.1 hq).imp_right fun hq => (hgood q hq).2

theorem writeQueued_goes (hlen : writes.length = l.batch.length) :
    Goes intact acks l (l.writeQueued writes) := by
  unfold writeQueued
  by_cases hfailed : l.failed = true
  · rw [if_pos hfailed]
    exact Inv.goes (Kept.inv { h.kept with } hfailed h.finishing) rfl le_rfl le_rfl
  · rw [if_neg hfailed]
    exact writeFrames_goes h (Bool.eq_false_iff.2 hfailed) hlen

theorem syncQueued_goes (batch : List QueuedFrame) (flush : Outcome)
    (sync : Bool) : Goes intact acks l (l.syncQueued batch flush sync) := by
  unfold syncQueued
  split
  · exact .refl h
  next hok => exact flushSync_goes h (Bool.eq_false_iff.2 fun hf => hok (.inl hf)) flush sync

end

/-- The action is a batch that was flushed and synced, to the end of the file. -/
def Acks (a : Action) (l : Log) : Prop :=
  ∃ writes flush, a = .writeBatch writes flush true ∧ flush.ok = true ∧ l.pending = [] ∧
    l.file.synced = l.file.content.length

/-- A batch that went through has all its `sync` frames synced. -/
theorem writeBatch_synced (h : Inv intact l) (hlen : writes.length = l.batch.length)
    {k : Log} (hk : (l.writeQueued writes).syncQueued l.batch flush sync = k)
    (hok : k.failed = false) {f : QueuedFrame} (hf : f ∈ l.batch) (hsync : f.sync = true) :
    f.seq ≤ k.syncedSeq ∧ Acks (.writeBatch writes flush sync) k := by
  subst hk
  have hneed : ¬ l.batch.all (fun f => !f.sync) = true := by
    intro hall
    have := all_eq_true.1 hall f hf
    rw [hsync] at this
    cases this
  have hwritten : (l.writeQueued writes).failed = false := by
    by_contra hbad
    rw [syncQueued, if_pos (.inl (Bool.eq_true_of_not_eq_false hbad))] at hok
    exact hbad hok
  have hfailed : l.failed = false := by
    by_contra hbad
    rw [writeQueued, if_pos (Bool.eq_true_of_not_eq_false hbad)] at hwritten
    exact hbad hwritten
  have hdisk : (l.writeQueued writes).toDisk = l.toDisk.writeFrames l.batch writes := by
    simp [writeQueued, hfailed]
  rw [syncQueued, if_neg (by simp [hwritten, hneed])] at hok ⊢
  rw [hdisk] at hwritten hok ⊢
  rw [markWritten_failed] at hok
  rcases flushSync_ok hok with ⟨⟨hflush, rfl⟩, heq⟩
  rw [markWritten, if_neg (by simp [hok]), heq]
  refine ⟨le_max_of_le_right ?_, writes, flush, rfl, hflush, rfl, rfl⟩
  rcases h.live hfailed with ⟨w, hw⟩
  have hnumbered := hw.numbered
  rw [inflight, append_assoc, numbered_append] at hnumbered
  have hspec := writeFrames_spec l.batch hlen h.kept.synced_le hfailed hw.wrote hnumbered.1
  have hseq := (hspec.2.2.2 hwritten).seq
  have hle := numbered_seq_le hnumbered.1 hf
  rw [total_append] at hseq
  exact hle.trans hseq.ge

theorem writeBatch_goes (h : Inv intact l) (hs : writeBatch l writes flush sync = some l') :
    Goes intact (Acks (.writeBatch writes flush sync) l') l l' := by
  unfold writeBatch at hs
  split at hs
  · cases hs
  next hguard =>
    have hlen : writes.length = l.batch.length := by
      by_contra hne
      exact hguard (.inr hne)
    obtain ⟨k, hk⟩ : ∃ k, (l.writeQueued writes).syncQueued l.batch flush sync = k := ⟨_, rfl⟩
    simp only [hk] at hs
    refine (writeQueued_goes h hlen).bind fun hwrote =>
      (syncQueued_goes hwrote l.batch flush sync).bind fun hsynced => ?_
    rw [hk] at hsynced ⊢
    cases hs
    refine done_goes hsynced (fun q hq => ?_) (fun q hq => ?_)
    · rcases mem_map.1 hq with ⟨f, hf, heq⟩
      rcases mem_filter.1 hf with ⟨hmem, hsync⟩
      simp only [Prod.mk.injEq, Bool.not_eq_true'] at heq
      rw [← heq.1]
      exact writeBatch_synced h hlen hk heq.2 hmem hsync
    · rcases mem_map.1 hq with ⟨f, _, heq⟩
      simp only [Prod.mk.injEq, Bool.not_eq_false'] at heq
      exact heq.2

/-! ## Appending under the policy `no` -/

section

variable (h : Inv intact l)

include h

section

variable (hfailed : l.failed = false)

include hfailed

theorem Inv.live_drained
    (hholder : l.holder = some (t, true)) : Live l l.history ∧ l.inflight = [] := by
  rcases h.live hfailed with ⟨w, hw⟩
  have hnil := hw.drained t hholder
  have hall : l.history = w := by
    rw [hw.split, hnil]
    simp
  exact ⟨hall ▸ hw, hnil⟩

theorem wroteNow_goes {e : Entry} (hholder : l.holder = some (.append e, true)) (write : Outcome) :
    Goes intact acks l (wroteNow { l with toDisk := l.toDisk.write e.data write } e) := by
  rcases h.live_drained hfailed hholder with ⟨hw, hnil⟩
  have happended : l.appendedSeq + e.count = total (l.history ++ [e]) := by
    rw [total_append, total_singleton, h.kept.appended]
  have hempty : l.batch ++ l.queue = [] := by
    simpa [inflight, hholder, sending] using hnil
  have hflight : inflight (wroteNow { l with toDisk := l.toDisk.write e.data write } e) =
      [] := by
    change l.batch ++ l.queue ++ [] = []
    rw [hempty]
    rfl
  have hmore : l.writtenSeq ≤ l.appendedSeq + e.count := h.kept.written.trans (Nat.le_add_right _ _)
  refine ⟨⟨h.kept.next rfl happended ⟨[e], rfl⟩ rfl rfl (fun hf => ?_)
    (write_grows h.kept.synced_le e.data write) le_rfl (h.kept.synced.trans hmore) (.inl rfl),
    fun _ _ ht => (by cases ht), fun _ => ⟨l.history ++ [e], ?_, ⟨?_, ?_, happended⟩,
      by rw [hflight]; trivial, fun q hq => (hw.returned q hq).trans (by simp), fun hactive => ?_,
      fun t ht => (by cases ht)⟩⟩, Nat.le_add_right _ _, hmore, le_rfl, fun _ hq => .inl hq⟩
  · exact absurd (hfailed.symm.trans hf) (by decide)
  · rw [hflight]
    simp [wroteNow]
  · change (l.toDisk.write e.data write).file.content ++ (l.toDisk.write e.data write).pending =
      l.file.base ++ body ((l.history ++ [e]).drop l.file.since)
    rw [write_content, hw.wrote.content, body_drop_append hw.wrote.since, body_singleton,
      append_assoc]
  · exact hw.wrote.since.trans (by simp)
  · rcases hw.buffered hactive with ⟨b, hb, hbegun⟩
    have heq : l.history = b := by simpa [hholder, held] using hb
    exact ⟨b, by simp [wroteNow, held, heq], hbegun⟩

theorem flush_goes (flush : Outcome) :
    Goes intact acks l { l with toDisk := l.toDisk.flush flush } := by
  have hseqs : (l.toDisk.flush flush).writtenSeq = l.writtenSeq ∧
      (l.toDisk.flush flush).syncedSeq = l.syncedSeq := by
    unfold Disk.flush
    split <;> exact ⟨rfl, rfl⟩
  refine Inv.goes ⟨h.kept.grow rfl (fun hf => ?_) (Disk.flush_grows h.kept.synced_le flush)
    (hseqs.1.le.trans h.kept.written) hseqs.1.ge hseqs.2, h.finishing, fun hok => ?_⟩ rfl
    hseqs.1.ge hseqs.2.ge
  · exact absurd (hfailed.symm.trans hf) (by decide)
  · rcases h.live hfailed with ⟨w, hw⟩
    exact ⟨w, { hw with wrote := (Disk.flush_wrote hw.wrote hok).1 }⟩

theorem returned_goes (hnil : l.inflight = []) (hpending : l.pending = []) :
    Goes intact acks l { l with returned := l.returned ++ [l.appendedSeq] } := by
  rcases h.live hfailed with ⟨w, hw⟩
  have hall : l.history = w := by
    rw [hw.split, hnil]
    simp
  have hle : ∀ q ∈ l.returned ++ [l.appendedSeq], q ≤ total l.history := by
    rw [forall_mem_append, forall_mem_singleton, h.kept.appended, hall]
    exact ⟨hw.returned, le_refl _⟩
  have hheld : l.file.Holds l.file.content l.history := by
    have hcontent := hw.wrote.content
    rw [hpending, append_nil] at hcontent
    unfold File.Holds
    rw [hcontent, hall]
  refine ⟨⟨{ h.kept with returned := ⟨l.history.length, le_rfl, ?_⟩ }, h.finishing,
    fun _ => ⟨w, { hw with returned := hall ▸ hle }⟩⟩, le_rfl, le_rfl, le_rfl, fun _ hq => .inl hq⟩
  rw [take_length]
  exact ⟨hle, fun _ => hheld⟩

end

theorem appendWrite_goes {write : Outcome}
    (hs : appendWrite l write flush = some l') : Goes intact acks l l' := by
  unfold appendWrite at hs
  split at hs
  next e hholder =>
    by_cases hfailed : l.failed = true
    · rw [if_pos hfailed] at hs
      cases hs
      exact (leave_goes h hholder rfl).1
    · rw [if_neg hfailed] at hs
      have hok : l.failed = false := Bool.eq_false_iff.2 hfailed
      by_cases hbad : (l.toDisk.write e.data write).failed = true
      · rw [if_pos hbad] at hs
        cases hs
        exact Inv.goes (Kept.inv (h.kept.grow rfl (fun _ => hbad)
          (write_grows h.kept.synced_le e.data write) h.kept.written le_rfl rfl) hbad nofun)
          rfl le_rfl le_rfl
      · rw [if_neg hbad] at hs
        have hwrote := @wroteNow_goes intact acks l h hok e hholder write
        set l1 := wroteNow { l with toDisk := l.toDisk.write e.data write } e with hl1
        have hok1 : l1.failed = false := Bool.eq_false_iff.2 hbad
        have hflushed := hwrote.bind fun hi => flush_goes hi hok1 flush
        by_cases hbad2 : (l1.toDisk.flush flush).failed = true
        · rw [if_pos hbad2] at hs
          cases hs
          exact hflushed.bind fun hi => release_goes hi rfl (.inr (.inr hbad2))
        · rw [if_neg hbad2] at hs
          cases hs
          have hok2 := Bool.eq_false_iff.2 hbad2
          rcases hwrote.inv.live hok1 with ⟨w, hw⟩
          have hpending := (flush_wrote hw.wrote hok2).2
          have hnil : inflight { l1 with toDisk := l1.toDisk.flush flush } = [] := by
            have hempty := (h.live_drained hok hholder).2
            simpa [inflight, hholder, sending, hl1, wroteNow] using hempty
          exact hflushed.bind fun hi => (returned_goes hi hok2 hnil hpending).bind fun hi =>
            @bufferRewriteFrame_goes _ _ _ hi ⟨e, l.appendedSeq + e.count, false⟩ rfl rfl
  · cases hs

end

/-! ## Rewriting -/

section

variable (h : Inv intact l) {text : Bytes}

include h

theorem lock_goes (hholder : l.holder = none) (ht : t.drains = true)
    (hfinish : ∀ text, t = .finish text → l.rewriteActive = true) :
    Goes intact acks l { l with holder := some (t, false) } := by
  rcases Task.held_of_drains ht false with ⟨hheld, hsending⟩
  refine h.pass rfl rfl rfl (by rw [hholder]; exact hheld) ?_ (fun text _ hlock => ?_) nofun
  · simp only [inflight, hsending, hholder, sending_none]
  · cases hlock
    exact hfinish text rfl

theorem rewriter_goes (phase : Rewriter) :
    Goes intact acks l { l with rewriter := phase } :=
  h.pass rfl rfl rfl rfl rfl h.finishing fun _ t hw => hw.drained t

theorem stopRewrite_free_goes (hholder : l.holder = none) : Goes intact acks l l.stopRewrite := by
  have hsame : l.stopRewrite.release = l.stopRewrite := by
    simp [release, stopRewrite, hholder]
  rw [← hsame]
  exact stopRewrite_goes h (by rw [hholder]; rfl)

theorem beginRewrite_goes (hs : beginRewrite l = some l') : Goes intact acks l l' := by
  unfold beginRewrite at hs
  split at hs
  · cases hs
  next hholder =>
    split at hs
    · cases hs
      exact .refl h
    · cases hs
      exact lock_goes h hholder rfl (fun text ht => (by cases ht))

theorem beginDone_goes (hs : beginDone l = some l') : Goes intact acks l l' := by
  unfold beginDone at hs
  split at hs
  next hholder =>
    split at hs
    · cases hs
      exact (leave_goes h hholder rfl).1
    · cases hs
      refine h.turn rfl rfl ?_ nofun (fun _ _ _ _ => ?_) nofun
      · simp [inflight, hholder, sending]
      · exact ⟨l.history, by simp, le_rfl, by simp [body]⟩
  · cases hs

theorem finishRewrite_goes {records : List Record}
    (hs : finishRewrite l records = some l') : Goes intact acks l l' := by
  unfold finishRewrite at hs
  split at hs
  next hholder _ =>
    split at hs
    · cases hs
      exact stopRewrite_free_goes h hholder
    · cases hs
      exact rewriter_goes h _
  · cases hs

theorem prepare_goes {fails : Option PrepareStep}
    (hs : prepare l fails = some l') : Goes intact acks l l' := by
  unfold prepare at hs
  split at hs
  · split at hs
    · cases hs
      exact rewriter_goes h _
    · cases hs
      exact rewriter_goes h _
  · cases hs

theorem abort_goes (hs : abort l = some l') : Goes intact acks l l' := by
  unfold abort at hs
  split at hs
  next hholder _ =>
    cases hs
    exact stopRewrite_free_goes h hholder
  · cases hs

theorem finishLock_goes (hs : finishLock l = some l') : Goes intact acks l l' := by
  unfold finishLock at hs
  split at hs
  next hholder _ =>
    split at hs
    next hactive =>
      cases hs
      exact lock_goes h hholder rfl (fun _ _ => hactive)
    · cases hs
      exact rewriter_goes h _
  · cases hs

theorem rewritten_wrote (hfailed : l.failed = false)
    (hholder : l.holder = some (.finish text, true)) : (l.rewritten text).content =
      (l.rewritten text).base ++ body (l.history.drop (l.rewritten text).since) ∧
      (l.rewritten text).since ≤ l.history.length := by
  rcases h.live_drained hfailed hholder with ⟨hw, _⟩
  rcases hw.buffered (h.finishing _ _ hholder) with ⟨b, hb, hbegun, hbuffer⟩
  have heq : l.history = b := by simpa [hholder, held] using hb
  constructor
  · change text ++ l.rewriteBuffer.flatten = text ++ body (l.history.drop l.begunAt)
    rw [hbuffer, heq]
  · rw [heq]
    exact hbegun

theorem swap_goes (hfailed : l.failed = false) (hname : intact = true → l.fileName = .log)
    (hholder : l.holder = some (.finish text, true)) (fails : Bool) :
    Goes intact acks l (markSynced { l with
      file := l.rewritten text
      pending := []
      atPath := if l.fileName = .log then none else some l.pathFile
      fileName := .temp
      writtenSeq := l.appendedSeq
      failed := fails }).stopRewrite.release := by
  rcases h.live_drained hfailed hholder with ⟨hw, hnil⟩
  rcases rewritten_wrote h hfailed hholder with ⟨hcontent, hsince⟩
  have hholds : (l.rewritten text).Holds (l.rewritten text).content l.history := by
    unfold File.Holds
    rw [hcontent]
  have hsynced : max l.syncedSeq l.appendedSeq ≤ l.appendedSeq :=
    max_le (h.kept.synced.trans h.kept.written) le_rfl
  have hdurable : max l.syncedSeq l.appendedSeq ≤ total (l.history.take l.history.length) ∧
      (0 < l.history.length → (l.rewritten text).Holds
        ((l.rewritten text).content.take (l.rewritten text).content.length)
        (l.history.take l.history.length)) := by
    rw [take_length, take_length]
    exact ⟨hsynced.trans h.kept.appended.le, fun _ => hholds⟩
  have hreturned : (∀ q ∈ l.returned, q ≤ total (l.history.take l.history.length)) ∧
      (0 < l.history.length → (l.rewritten text).Holds (l.rewritten text).content
        (l.history.take l.history.length)) := by
    rw [take_length]
    exact ⟨hw.returned, fun _ => hholds⟩
  have hflight : l.batch ++ l.queue ++ [] = [] := by
    simpa [inflight, hholder, sending] using hnil
  have hkept : (∀ q, (q, true) ∈ l.done → q ≤ max l.syncedSeq l.appendedSeq) ∧
      ∀ q, (q, false) ∈ l.done → fails = true :=
    ⟨fun q hq => (h.kept.done q hq).trans (le_max_left _ _),
      fun q hq => absurd (hfailed.symm.trans (h.kept.refused q hq)) (by decide)⟩
  refine ⟨⟨⟨fun hi => if_pos (hname hi), h.kept.appended, le_rfl, hsynced, le_rfl, hkept.1, hkept.2,
    ⟨_, le_rfl, hdurable⟩, ⟨_, le_rfl, hreturned⟩⟩, fun _ _ ht => (by cases ht),
    fun _ => ⟨l.history, ?_, ⟨?_, hsince, h.kept.appended⟩, ?_, hw.returned,
      fun hactive => (by cases hactive), fun t ht => (by cases ht)⟩⟩, le_rfl, h.kept.written,
    le_max_left _ _, fun _ hq => .inl hq⟩
  · change l.history = l.history ++ (l.batch ++ l.queue ++ []).map QueuedFrame.entry
    rw [hflight]
    simp
  · change (l.rewritten text).content ++ [] = _
    rw [append_nil, hcontent]
    rfl
  · change Numbered _ (l.batch ++ l.queue ++ [])
    rw [hflight]
    trivial

end

/-- No file-system step behind the rename to the log path fails, and no rewrite is installed over a
rewritten file. -/
def Action.keepsPath (l : Log) : Action → Bool
  | .install fails =>
    match l.fileName with
    | .log => fails.all fun step => !step.afterRename
    | .temp => fails.any (· ≠ .closePrevious)
  | _ => true

theorem install_goes (h : Inv intact l) {fails : Option InstallStep}
    (hgood : intact = true → Action.keepsPath l (.install fails) = true)
    (hs : install l fails = some l') : Goes intact acks l l' := by
  unfold install at hs
  split at hs
  next text hholder =>
    by_cases hfailed : l.failed = true
    · rw [if_pos hfailed] at hs
      cases hs
      exact (leave_goes h hholder rfl).2
    · rw [if_neg hfailed] at hs
      have hok : l.failed = false := Bool.eq_false_iff.2 hfailed
      have hname : fails.all (· = .closePrevious) → intact = true → l.fileName = .log := by
        intro hswap hi
        have hkeeps := hgood hi
        cases hlog : l.fileName with
        | log => rfl
        | temp => cases fails <;> simp_all [Action.keepsPath]
      split at hs
      · cases hs
        exact swap_goes h hok (hname rfl) hholder _
      · cases hs
        exact swap_goes h hok (hname rfl) hholder _
      · split at hs
        next hafter =>
          -- the log goes on with the old file, which is not at the log path any more
          cases hs
          have hstop := (@leave_goes intact acks _ _ h _ hholder rfl).2
          refine ⟨⟨{ hstop.inv.kept with here := fun hi => ?_ }, hstop.inv.finishing, fun hf => ?_⟩,
            hstop.appended, hstop.written, hstop.synced, hstop.answered⟩
          · have hkeeps := hgood hi
            simp [Action.keepsPath, hafter] at hkeeps
          · rcases hstop.inv.live hf with ⟨w, hw⟩
            exact ⟨w, { hw with }⟩
        · cases hs
          exact (leave_goes h hholder rfl).2
  · cases hs

/-! ## The policy -/

section

variable (h : Inv intact l)

include h

theorem policy_goes (policy : Policy) :
    Goes intact acks l { l with policy := policy } :=
  h.pass rfl rfl rfl rfl rfl h.finishing fun _ t hw => hw.drained t

/-- Everything appended is written in a drained log, so the sync loop would report the same. -/
theorem markSynced_goes (hfailed : l.failed = false)
    (hholder : l.holder = some (t, true)) (hok : (l.toDisk.flushSync flush sync).failed = false) :
    Goes intact acks l (markSynced { l with toDisk := l.toDisk.flushSync flush sync }) := by
  have hwritten : (l.toDisk.flushSync flush sync).writtenSeq = l.appendedSeq := by
    rw [(flushSync_seqs l.toDisk flush sync).1, h.kept.appended]
    exact (h.live_drained hfailed hholder).1.wrote.seq
  have hsame : markSynced { l with toDisk := l.toDisk.flushSync flush sync } =
      { l with toDisk := (l.toDisk.flushSync flush sync).markWritten } := by
    simp [markSynced, markWritten, hok, hwritten]
  rw [hsame]
  exact flushSync_goes h hfailed flush sync

theorem setPolicy_goes {policy : Policy} (hs : setPolicy l policy = some l') :
    Goes intact acks l l' := by
  unfold setPolicy at hs
  split at hs
  · cases hs
  next hholder =>
    cases hs
    exact lock_goes h hholder rfl (fun text ht => (by cases ht))

theorem setPolicyDone_goes (hs : setPolicyDone l flush sync = some l') : Goes intact acks l l' := by
  unfold setPolicyDone at hs
  split at hs
  next policy hholder =>
    split at hs
    · cases hs
      exact (leave_goes h hholder rfl).1
    next hgo =>
      have hok : l.failed = false := Bool.eq_false_iff.2 fun hf => hgo (.inl hf)
      split at hs
      · by_cases hbad : (l.toDisk.flushSync flush sync).failed = true
        · rw [if_pos hbad] at hs
          cases hs
          have hflushed := @flushSync_goes intact acks l h hok flush sync
          rw [markWritten, if_pos hbad] at hflushed
          exact hflushed.bind fun hi => (leave_goes hi hholder rfl).1
        · rw [if_neg hbad] at hs
          cases hs
          exact (markSynced_goes h hok hholder (Bool.eq_false_iff.2 hbad)).bind fun hi =>
            (policy_goes hi policy).bind fun hi => (leave_goes hi hholder rfl).1
      · cases hs
        exact (policy_goes h policy).bind fun hi => (leave_goes hi hholder rfl).1
  · cases hs

end

/-! ## Runs -/

theorem step_goes (h : Inv intact l) {a : Action} (hgood : intact = true → a.keepsPath l = true)
    (hs : step l a = some l') : Goes intact (Acks a l') l l' := by
  cases a with
  | append f => exact append_goes h hs
  | send => exact send_goes h hs
  | buffer => exact buffer_goes h hs
  | awaited => exact awaited_goes h hs
  | drain => exact drain_goes h hs
  | appendWrite write flush => exact appendWrite_goes h hs
  | receive => exact receive_goes h hs
  | writeBatch writes flush sync => exact writeBatch_goes h hs
  | tick flush sync => exact tick_goes h hs
  | beginRewrite => exact beginRewrite_goes h hs
  | beginDone => exact beginDone_goes h hs
  | finishRewrite records => exact finishRewrite_goes h hs
  | prepare fails => exact prepare_goes h hs
  | abort => exact abort_goes h hs
  | finishLock => exact finishLock_goes h hs
  | install fails => exact install_goes h hgood hs
  | setPolicy policy => exact setPolicy_goes h hs
  | setPolicyDone flush sync => exact setPolicyDone_goes h hs

theorem run_inv : ∀ {l l' : Log}, Inv intact l →
    (intact = true → Along step (fun l a => a.keepsPath l = true) l actions) →
      run l actions = some l' → Inv intact l' := by
  induction actions with
  | nil =>
    intro l l' h _ hrun
    cases hrun
    exact h
  | cons a actions ih =>
    intro l l' h hgood hrun
    rcases Option.bind_eq_some_iff.1 hrun with ⟨l1, hstep, hrest⟩
    exact ih (step_goes h (fun hi => (hgood hi).1) hstep).inv
      (fun hi => (hgood hi).2 l1 hstep) hrest

/-- In every run in which no step behind the rename to the log path fails and at most one rewrite is
installed, the file at the log path keeps every acknowledged append. -/
theorem rewrite_safe {policy : Policy} {content : Bytes} {actions : List Action} {l : Log}
    (hgood : Along step (fun l a => a.keepsPath l = true) (Log.opened policy content) actions)
    (hrun : run (Log.opened policy content) actions = some l) : Safe l :=
  (run_inv (Inv.opened policy content) (fun _ => hgood) hrun).safe

/-- An append under the policy `always`, from its admission to the result. -/
def appendAlways (key value : Bytes) : List Action :=
  [.append (.plainSet key value), .send, .buffer, .receive, .writeBatch [⟨0, true⟩] ⟨0, true⟩ true]

/-- A rewrite without base records, with an append while it runs. -/
def rewriteAround (fails : Option InstallStep) : List Action :=
  [.beginRewrite, .drain, .beginDone] ++ appendAlways [1] [2] ++
    [.awaited, .finishRewrite [], .prepare none, .finishLock, .drain, .install fails]

theorem rewrite_safe_around :
    ∃ l, run (Log.opened .always magic)
        (appendAlways [0] [1] ++ rewriteAround none ++ appendAlways [2] [3]) = some l ∧
      (l.history.length = 3 ∧ l.file.since = 1 ∧ l.seqAt 2 ≤ l.syncedSeq) ∧ Safe l := by
  have hfacts : ∃ l, run (Log.opened .always magic)
        (appendAlways [0] [1] ++ rewriteAround none ++ appendAlways [2] [3]) = some l ∧
      l.history.length = 3 ∧ l.file.since = 1 ∧ l.seqAt 2 ≤ l.syncedSeq :=
    ⟨_, rfl, by decide +kernel⟩
  rcases hfacts with ⟨l, hrun, hl⟩
  exact ⟨l, hrun, hl, rewrite_safe (by decide +kernel) hrun⟩

/-- When the directory cannot be synced behind the rename, and also behind a second rewrite, the
next append is acknowledged as durable and is not in the file at the log path. -/
theorem rewrite_loses_append :
    (∃ l, run (Log.opened .always magic) (rewriteAround (some .syncDir) ++ appendAlways [2] [3]) =
        some l ∧
      l.Durable 1 ∧
        ¬ l.pathFile.Holds (l.pathFile.content.take l.pathFile.synced) (l.history.take 2)) ∧
    ∃ l, run (Log.opened .always magic)
        (rewriteAround none ++ rewriteAround none ++ appendAlways [2] [3]) = some l ∧
      l.Durable 2 ∧
        ¬ l.pathFile.Holds (l.pathFile.content.take l.pathFile.synced) (l.history.take 3) :=
  ⟨⟨_, rfl, by unfold Log.Durable File.Holds; decide +kernel⟩,
    ⟨_, rfl, by unfold Log.Durable File.Holds; decide +kernel⟩⟩

/-! ## Sequence numbers -/

/-- An append answered with success was answered by a batch of the run that was synced.  The run
is split at the first state in which the answer stands. -/
theorem run_answered {q : Nat} : ∀ {l l' : Log}, Inv false l →
    run l actions = some l' → (q, true) ∈ l'.done → (q, true) ∈ l.done ∨
      ∃ before a rest l₁ l₂, actions = before ++ a :: rest ∧ run l before = some l₁ ∧
        step l₁ a = some l₂ ∧ Acks a l₂ ∧ q ≤ l₂.syncedSeq := by
  induction actions with
  | nil =>
    intro l l' _ hrun hq
    cases hrun
    exact .inl hq
  | cons a actions ih =>
    intro l l' h hrun hq
    rcases Option.bind_eq_some_iff.1 hrun with ⟨l₁, hstep, hrest⟩
    have hgoes := step_goes h nofun hstep
    rcases ih hgoes.inv hrest hq with hmem | ⟨before, b, rest, k₁, k₂, rfl, hbefore, hlater⟩
    · refine (hgoes.answered q hmem).imp_right fun hacks => ?_
      exact ⟨[], a, actions, l, l₁, rfl, rfl, hstep, hacks, hgoes.inv.kept.done q hmem⟩
    · exact .inr ⟨a :: before, b, rest, k₁, k₂, rfl, by rw [run, hstep]; exact hbefore, hlater⟩

/-- In every run what is synced is written and what is written is appended, and none of the three
falls.  An append under the policy `always` succeeds only behind a batch that was flushed and
synced up to its sequence number. -/
theorem sequenced {policy : Policy} {content : Bytes} {actions : List Action} {l : Log}
    (hrun : run (Log.opened policy content) actions = some l) :
    (l.syncedSeq ≤ l.writtenSeq ∧ l.writtenSeq ≤ l.appendedSeq) ∧
      (∀ a l', step l a = some l' → l.appendedSeq ≤ l'.appendedSeq ∧
        l.writtenSeq ≤ l'.writtenSeq ∧ l.syncedSeq ≤ l'.syncedSeq) ∧
      ∀ q, (q, true) ∈ l.done → ∃ before a rest l₁ l₂, actions = before ++ a :: rest ∧
        run (Log.opened policy content) before = some l₁ ∧ step l₁ a = some l₂ ∧ Acks a l₂ ∧
        q ≤ l₂.syncedSeq := by
  have hopened : Inv false (Log.opened policy content) := Inv.opened policy content
  have h := run_inv hopened nofun hrun
  refine ⟨⟨h.kept.synced, h.kept.written⟩, fun a l' hstep => ?_, fun q hq => ?_⟩
  · have hgoes := step_goes h nofun hstep
    exact ⟨hgoes.appended, hgoes.written, hgoes.synced⟩
  · exact (run_answered hopened hrun hq).resolve_left (by simp [Log.opened])

theorem sequenced_around :
    ∃ l, run (Log.opened .always magic) (rewriteAround (some .syncDir) ++ appendAlways [2] [3]) =
        some l ∧ ((2, true) ∈ l.done ∧ l.syncedSeq = 2) ∧ l.writtenSeq ≤ l.appendedSeq := by
  have hfacts : ∃ l, run (Log.opened .always magic)
      (rewriteAround (some .syncDir) ++ appendAlways [2] [3]) = some l ∧
        (2, true) ∈ l.done ∧ l.syncedSeq = 2 := ⟨_, rfl, by decide +kernel⟩
  rcases hfacts with ⟨l, hrun, hl⟩
  exact ⟨l, hrun, hl, (sequenced hrun).1.2⟩

end Persistence
end SnugKV
