import SnugKV.Index.KeyPack.Proofs
import SnugKV.Index.Table

/-!
# Key records — every reader of the key log finds the key that was appended

The readers of a record are `keyAt`, the decoder of iterations, `keyLen`, `recordLen`, `keyEquals`
and `recordHash`; the writer is `record`.

* `KeyChunk.decode` — the decoder that hands out keys from a shared buffer;
* `records_read_back` — what the readers find behind an append, and what a run of records parses to.
-/

namespace SnugKV
namespace Index

open Lib List

/-- A Go string is shorter than `2 ^ 63` bytes. -/
@[ext]
structure KeyString where
  bytes : Key
  fits : bytes.length < 2 ^ 63

/-- The key log of a table stays within `maxLogBytes`. -/
structure KeyLog where
  bytes : Bytes
  fits : bytes.length ≤ maxLogBytes

/-! ## Decoding for iterations -/

def PackedParts.keyLen (p : PackedParts) : Nat :=
  if p.flags = packEmpty then 0
  else p.lead.length + 2 * p.payload.length + (if p.flags &&& pack0x ≠ 0 then 2 else 0)

def keyChunkSize : Nat := 8 <<< 10

/-- The buffer decoded keys are cut from, with its capacity. -/
structure KeyChunk where
  buf : Bytes := []
  capacity : Nat := 0

def KeyChunk.decode (c : KeyChunk) (rec : Bytes) : KeyChunk × Key :=
  let parts := PackedParts.parse rec
  if parts.flags = packEmpty then (c, [])
  else
    let n := parts.keyLen
    let c := if c.capacity - c.buf.length < n then
        ⟨[], if keyChunkSize < n then n else keyChunkSize⟩
      else c
    let buf := c.buf ++ parts.key
    ({ c with buf }, (buf.drop c.buf.length).take n)

def keyChunked (c : KeyChunk) (log : Bytes) (offset : Nat) : KeyChunk × Key :=
  if (log.drop offset).getD 0 0 = packEscape then c.decode (log.drop offset)
  else (c, keyAt log offset)

/-- `KeyLen`: the length of the key stored at the offset. -/
def keyLen (log : Bytes) (offset : Nat) : Nat :=
  let b := log.drop offset
  if b.getD 0 0 = packEscape then (PackedParts.parse b).keyLen else (rawRecord b).2

theorem length_key (p : PackedParts) : p.key.length = p.keyLen := by
  unfold PackedParts.key PackedParts.keyLen
  split_ifs
  · rfl
  · simp only [length_append, length_cons, length_nil, length_digitsFrom]
    omega
  · simp only [length_append, length_nil, length_digitsFrom]
    omega

theorem decode_snd (c : KeyChunk) (rec : Bytes) :
    (c.decode rec).2 = (PackedParts.parse rec).key := by
  unfold KeyChunk.decode
  by_cases hempty : (PackedParts.parse rec).flags = packEmpty
  · simp [hempty, PackedParts.key]
  · simp only [hempty, if_false, drop_left, ← length_key, take_length]

theorem keyChunked_snd (c : KeyChunk) (log : Bytes) (offset : Nat) :
    (keyChunked c log offset).2 = keyAt log offset := by
  unfold keyChunked
  split_ifs with hescape
  · rw [decode_snd, keyAt]
    simp only [hescape, if_true]
  · rfl

theorem keyLen_of_recordAt {log : Bytes} {offset : Nat} {key : Key} (h : RecordAt log offset key) :
    keyLen log offset = key.length := by
  have hkey := keyAt_of_recordAt h
  obtain ⟨h64, rest, hdrop⟩ := h
  unfold keyLen
  by_cases hescape : (log.drop offset).getD 0 0 = packEscape
  · rw [keyAt] at hkey
    simp only [hescape, if_true] at hkey ⊢
    rw [← hkey, length_key]
  · simp only [hescape, if_false]
    rcases record_cases key with ⟨p, _, _, hrec⟩ | ⟨_, hrec⟩ | ⟨hpos, hrec⟩
    · rw [hdrop, hrec, getD_zero_encode] at hescape
      exact absurd rfl hescape
    · rw [hdrop, hrec] at hescape
      exact absurd rfl hescape
    · rw [hdrop, hrec, append_assoc, rawRecord_putUvarint hpos h64]

/-! ## Reading back -/

/-- The keys of the records from the offset on, one after the other. -/
def readRecords (log : Bytes) : Nat → Nat → List Key
  | 0, _ => []
  | fuel + 1, offset =>
    if log.length ≤ offset then []
    else keyAt log offset :: readRecords log fuel (offset + recordLen log offset)

/-- What every reader finds at the offset. -/
structure ReadsBack (hash : Key → UInt64) (log : Bytes) (offset : UInt32) (key : Key) : Prop where
  decoded : keyAt log offset.toNat = key
  iterated : ∀ c, (keyChunked c log offset.toNat).2 = key
  length : keyLen log offset.toNat = key.length
  size : recordLen log offset.toNat = keyRecordSize key
  equals : ∀ k, keyEquals log offset.toNat k = true ↔ k = key
  hashed : recordHash hash log offset = hash key

theorem readsBack_of_recordAt (hash : Key → UInt64) {log : Bytes} {offset : UInt32} {key : Key}
    (h : RecordAt log offset.toNat key) : ReadsBack hash log offset key where
  decoded := keyAt_of_recordAt h
  iterated c := by rw [keyChunked_snd, keyAt_of_recordAt h]
  length := keyLen_of_recordAt h
  size := by rw [recordLen_of_recordAt h, length_record]
  equals k := by rw [keyEquals_of_recordAt h, decide_eq_true_eq, eq_comm]
  hashed := by rw [recordHash, keyAt_of_recordAt h]

theorem readRecords_append (front : Bytes) (ks : List KeyString) {fuel : Nat}
    (hfuel : ks.length < fuel) :
    readRecords (front ++ ks.flatMap fun k => record k.bytes) fuel front.length =
      ks.map KeyString.bytes := by
  induction ks generalizing front fuel with
  | nil =>
    obtain ⟨fuel, rfl⟩ := Nat.exists_eq_succ_of_ne_zero (ne_of_gt hfuel)
    simp [readRecords]
  | cons k ks ih =>
    obtain ⟨fuel, rfl⟩ := Nat.exists_eq_succ_of_ne_zero (ne_of_gt (Nat.zero_lt_of_lt hfuel))
    have hrecord : RecordAt (front ++ (k :: ks).flatMap fun k => record k.bytes) front.length
        k.bytes :=
      ⟨lt_trans k.fits (by decide), ks.flatMap fun k => record k.bytes, by simp⟩
    have htwo := two_le_length_record k.bytes
    have hnext := ih (front ++ record k.bytes) (Nat.lt_of_succ_lt_succ hfuel)
    rw [length_append, append_assoc] at hnext
    rw [readRecords, if_neg (by simp only [flatMap_cons, length_append]; omega),
      keyAt_of_recordAt hrecord, recordLen_of_recordAt hrecord, flatMap_cons, hnext,
      map_cons]

theorem length_le_flatMap_record (ks : List KeyString) :
    ks.length ≤ (ks.flatMap fun k => record k.bytes).length := by
  induction ks with
  | nil => exact le_refl 0
  | cons k ks ih =>
    have htwo := two_le_length_record k.bytes
    rw [flatMap_cons, length_append, length_cons]
    omega

def allRecords (ks : List KeyString) : Bytes := ks.flatMap fun k => record k.bytes

/-- A key appended to the log is what every reader finds there, in the space `KeyRecordSize` says;
a run of records parses back to its keys, and no other keys have the same records. -/
theorem records_read_back (hash : Key → UInt64) :
    (∀ (log : KeyLog) (key : KeyString) (rest : Bytes), ReadsBack hash
      (log.bytes ++ record key.bytes ++ rest) (UInt32.ofNat log.bytes.length) key.bytes) ∧
    (∀ ks, readRecords (allRecords ks) ((allRecords ks).length + 1) 0 = ks.map KeyString.bytes) ∧
    Function.Injective allRecords := by
  have hparse : ∀ ks, readRecords (allRecords ks) ((allRecords ks).length + 1) 0 =
      ks.map KeyString.bytes := fun ks =>
    readRecords_append [] ks (Nat.lt_succ_of_le (length_le_flatMap_record ks))
  refine ⟨fun log key rest => readsBack_of_recordAt hash ?_, hparse, fun ks ks' heq => ?_⟩
  · have hoffset : (UInt32.ofNat log.bytes.length).toNat = log.bytes.length := by
      have hfits := log.fits
      have hmax : maxLogBytes = 2 ^ 30 := rfl
      rw [UInt32.toNat_ofNat']
      omega
    rw [hoffset]
    exact ⟨lt_trans key.fits (by decide), rest, by simp⟩
  · refine map_injective_iff.2 (fun _ _ => KeyString.ext) ?_
    rw [← hparse ks, heq, hparse ks']

end Index
end SnugKV
