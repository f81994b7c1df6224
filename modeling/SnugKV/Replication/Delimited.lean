import SnugKV.Persistence.Frame

/-!
# Delimited — a snapshot that ends at a delimiter

`readReplicationEOFDelimited` of `server/replication.go` keeps the bytes that may begin the
delimiter apart, and gives them to the payload one by one after a mismatch.

* `shift_spec`      — no occurrence begins in what is given to the payload;
* `delimited_first` — what is read is what stands before the first occurrence.
-/

namespace SnugKV
namespace Replication

open Lib List Persistence

inductive DelimitedError where
  /-- `empty Redis EOF marker` -/
  | emptyMarker
  /-- The error of `ReadByte`. -/
  | read
  /-- `Redis EOF-framed snapshot exceeds limit` -/
  | exceedsLimit

/-- The inner loop; `none` is a payload beyond the limit. -/
def shift (marker : Bytes) : Bytes → Bytes → Option (Bytes × Bytes)
  | payload, [] => some (payload, [])
  | payload, c :: candidate =>
    if c :: candidate <+: marker then some (payload, c :: candidate)
    else if (payload ++ [c]).length > maxFrameBytes then none
    else shift marker (payload ++ [c]) candidate

/-- The outer loop: the payload and what is left to read. -/
def readDelimited (marker : Bytes) : Bytes → Bytes → Bytes → Except DelimitedError (Bytes × Bytes)
  | _, _, [] => .error .read
  | payload, candidate, b :: input =>
    match shift marker payload (candidate ++ [b]) with
    | none => .error .exceedsLimit
    | some (payload, candidate) =>
      if candidate.length = marker.length then .ok (payload, input)
      else readDelimited marker payload candidate input

def readReplicationEOFDelimited (input marker : Bytes) : Except DelimitedError (Bytes × Bytes) :=
  if marker = [] then .error .emptyMarker else readDelimited marker [] [] input

/-- No occurrence begins before the position `n`. -/
def NoneBefore (marker whole : Bytes) (n : Nat) : Prop :=
  ∀ p r, whole = p ++ marker ++ r → n ≤ p.length

section

variable {marker whole payload candidate input : Bytes}

/-- A mismatch rules out the position at which the candidate begins. -/
theorem NoneBefore.succ {c : UInt8} (h : NoneBefore marker whole payload.length)
    (hwhole : whole = payload ++ c :: candidate ++ input)
    (hlen : (c :: candidate).length ≤ marker.length) (hmiss : ¬ c :: candidate <+: marker) :
    NoneBefore marker whole (payload ++ [c]).length := by
  intro p r hp
  rw [length_append, length_singleton]
  refine Nat.succ_le_of_lt (lt_of_le_of_ne (h p r hp) fun heq => hmiss ?_)
  rw [hwhole, append_assoc, append_assoc] at hp
  have hrest := (append_inj hp heq).2
  exact prefix_of_prefix_length_le (prefix_append _ input) (hrest ▸ prefix_append ..) hlen

theorem shift_spec (hwhole : whole = payload ++ candidate ++ input)
    (hlen : candidate.length ≤ marker.length) (h : NoneBefore marker whole payload.length)
    (hlimit : payload.length ≤ maxFrameBytes) :
    match shift marker payload candidate with
    | none => NoneBefore marker whole (maxFrameBytes + 1)
    | some (payload, candidate) =>
      whole = payload ++ candidate ++ input ∧ candidate <+: marker ∧
        NoneBefore marker whole payload.length ∧ payload.length ≤ maxFrameBytes := by
  induction candidate generalizing payload with
  | nil => exact ⟨hwhole, nil_prefix, h, hlimit⟩
  | cons c candidate ih =>
    rw [shift]
    split_ifs with hmatch hfull
    · exact ⟨hwhole, hmatch, h, hlimit⟩
    · exact fun p r hp => hfull.trans_le (h.succ hwhole hlen hmatch p r hp)
    · exact ih (by simpa using hwhole) (Nat.le_of_succ_le hlen) (h.succ hwhole hlen hmatch)
        (not_lt.1 hfull)

theorem readDelimited_eq {out rest : Bytes} (hwhole : whole = payload ++ candidate ++ input)
    (hlen : candidate.length < marker.length) (h : NoneBefore marker whole payload.length)
    (hlimit : payload.length ≤ maxFrameBytes) :
    readDelimited marker payload candidate input = .ok (out, rest) ↔
      whole = out ++ marker ++ rest ∧ NoneBefore marker whole out.length ∧
        out.length ≤ maxFrameBytes := by
  induction input generalizing payload candidate with
  | nil =>
    refine ⟨nofun, fun ⟨hout, _⟩ => ?_⟩
    have hle := h _ _ hout
    have hsize := congrArg length (hwhole.symm.trans hout)
    simp only [length_append, append_nil] at hsize
    omega
  | cons b input ih =>
    have hspec := @shift_spec marker whole payload (candidate ++ [b]) input (by simpa using hwhole)
      (by simpa using hlen) h hlimit
    rw [readDelimited]
    generalize shift marker payload (candidate ++ [b]) = found at hspec ⊢
    rcases found with - | ⟨payload', candidate'⟩
    · exact ⟨nofun, fun ⟨hout, _, hsmall⟩ => absurd (hspec _ _ hout) (by omega)⟩
    · obtain ⟨hwhole', hmatch, h', hlimit'⟩ := hspec
      dsimp only
      split_ifs with hfull
      · rw [hmatch.eq_of_length hfull] at hwhole'
        constructor
        · rintro ⟨⟩
          exact ⟨hwhole', h', hlimit'⟩
        · rintro ⟨hout, hfirst, -⟩
          -- both are the first occurrence
          have hsame := le_antisymm (hfirst _ _ hwhole') (h' _ _ hout)
          rw [hwhole', append_assoc, append_assoc] at hout
          obtain ⟨rfl, hrest⟩ := append_inj hout hsame.symm
          rw [append_cancel_left hrest]
      · exact ih hwhole' (lt_of_le_of_ne hmatch.length_le hfull) h' hlimit'

end

/-- What is read is what stands before the first occurrence of the delimiter, if that is within the
limit, and the input is read up to its end; everything else is an error. -/
theorem delimited_first {marker : Bytes} (hmarker : marker ≠ []) (input payload rest : Bytes) :
    readReplicationEOFDelimited input marker = .ok (payload, rest) ↔
      input = payload ++ marker ++ rest ∧ NoneBefore marker input payload.length ∧
        payload.length ≤ maxFrameBytes := by
  rw [readReplicationEOFDelimited, if_neg hmarker]
  exact readDelimited_eq rfl (length_pos_of_ne_nil hmarker) (fun _ _ _ => Nat.zero_le _)
    (Nat.zero_le _)

theorem delimited_first_overlapping :
    readReplicationEOFDelimited [1, 1, 1, 2, 7] [1, 1, 2] = .ok ([1], [7]) := by
  refine (delimited_first (by decide) _ _ _).2 ⟨rfl, fun p r h => ?_, by decide⟩
  rcases p with - | ⟨x, p⟩
  · simp at h
  · simp

end Replication
end SnugKV
