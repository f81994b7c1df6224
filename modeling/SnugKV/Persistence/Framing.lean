import SnugKV.Persistence.Frame

/-!
# Framing — what a log file delivers

* `readPayload_encode`: the payload of a frame reads back as its batch, with its strings repaired;
* `readFrames_envelope`, `readFrames_torn`: one round of the reader at a complete frame and at a
  frame that was cut;
* `readLog_take`: the reader at any prefix of a file, by induction on its frames.
-/

namespace SnugKV
namespace Persistence

open Lib List

/-! ## Payloads -/

theorem getUint_length {b : Bytes} (h : b.length ≤ maxFrameBytes) :
    getUint (putUint 4 b.length) = b.length :=
  getUint_putUint_of_lt (h.trans_lt (by decide))

theorem readAt_putUint {d : Bytes} {p n : Nat} (h : HasAt d p (putUint 4 n)) :
    readAt d p 4 = putUint 4 n := by
  have := h.readAt
  rwa [length_putUint] at this

theorem readPlainSet_payload {key value : Bytes} (h : key.length ≤ maxFrameBytes) :
    readPlainSet (plainSetPayload key value) = .ok [plainRecord key value] := by
  have hlen : (plainSetPayload key value).length = 5 + key.length + value.length := by
    simp [plainSetPayload]
    omega
  have hkeyLen : HasAt (plainSetPayload key value) 1 (putUint 4 key.length) :=
    ⟨[plainSetFrameTag], key ++ value, by simp [plainSetPayload], rfl⟩
  have hkey : HasAt (plainSetPayload key value) 5 key :=
    ⟨plainSetFrameTag :: putUint 4 key.length, value, by simp [plainSetPayload], by simp⟩
  have hdrop : (plainSetPayload key value).drop (5 + key.length) = value :=
    drop_left' (by simp; omega)
  unfold readPlainSet
  rw [readAt_putUint hkeyLen, getUint_length h, if_neg (by omega), if_neg (by omega), hkey.readAt,
    hdrop]

theorem length_plainPair (p : Bytes × Bytes) :
    (plainPair p).length = 8 + p.1.length + p.2.length := by
  simp [plainPair]
  omega

theorem readPlainPairs_pairs {payload : Bytes} {pairs : List (Bytes × Bytes)} {off : Nat}
    (h : HasAt payload off (pairs.flatMap plainPair))
    (hend : off + (pairs.flatMap plainPair).length = payload.length)
    (hsize : ∀ p ∈ pairs, p.1.length ≤ maxFrameBytes ∧ p.2.length ≤ maxFrameBytes) :
    readPlainPairs payload pairs.length off = .ok (pairs.map (fun p => plainRecord p.1 p.2)) := by
  induction pairs generalizing off with
  | nil => simp_all [readPlainPairs]
  | cons p pairs ih =>
    obtain ⟨hp, hsize⟩ := forall_mem_cons.1 hsize
    obtain ⟨hpair, hrest⟩ := hasAt_append.1 h
    have hbound := hpair.bound
    have hnext := ih hrest (by simpa [add_assoc] using hend) hsize
    rw [length_plainPair] at hbound hnext
    simp only [plainPair, hasAt_append, length_append, length_putUint] at hpair
    obtain ⟨⟨⟨hkeyLen, hvalueLen⟩, hkey⟩, hvalue⟩ := hpair
    rw [length_cons, readPlainPairs, if_neg (by omega)]
    simp only [readAt_putUint hkeyLen, readAt_putUint hvalueLen, getUint_length hp.1,
      getUint_length hp.2]
    rw [if_neg (by omega), hkey.readAt, add_assoc off, hvalue.readAt, add_assoc off, hnext]
    rfl

theorem length_plainSetBatchPayload (keys values : List Bytes) :
    (plainSetBatchPayload keys values).length = plainSetBatchLength keys values := by
  simp [plainSetBatchPayload, plainSetBatchLength, length_flatMap, length_plainPair]
  omega

theorem readPlainSetBatch_payload {keys values : List Bytes}
    (hlen : plainSetBatchLength keys values ≤ maxFrameBytes) (heq : keys.length = values.length) :
    readPlainSetBatch (plainSetBatchPayload keys values) =
      .ok ((keys.zip values).map (fun p => plainRecord p.1 p.2)) := by
  have hpair : ∀ p ∈ keys.zip values, 8 + p.1.length + p.2.length ≤ maxFrameBytes := by
    intro p hp
    have := single_le_sum (l := (keys.zip values).map fun p => 8 + p.1.length + p.2.length)
      (fun _ _ => Nat.zero_le _) _ (mem_map_of_mem hp)
    unfold plainSetBatchLength at hlen
    omega
  have hcount : (keys.zip values).length ≤ maxFrameBytes := by
    have := length_le_sum_of_one_le ((keys.zip values).map fun p => 8 + p.1.length + p.2.length)
      (fun n hn => by
        rcases mem_map.1 hn with ⟨p, _, rfl⟩
        omega)
    rw [length_map] at this
    unfold plainSetBatchLength at hlen
    omega
  have hzip : (keys.zip values).length = keys.length := by simp [heq]
  have hcountAt : HasAt (plainSetBatchPayload keys values) 1 (putUint 4 keys.length) :=
    ⟨[plainSetBatchFrameTag], _, rfl, rfl⟩
  have hpairsAt : HasAt (plainSetBatchPayload keys values) 5
      ((keys.zip values).flatMap plainPair) :=
    ⟨plainSetBatchFrameTag :: putUint 4 keys.length, [], by simp [plainSetBatchPayload], by simp⟩
  have hpairs := readPlainPairs_pairs hpairsAt (by simp [plainSetBatchPayload]; omega)
    fun p hp => by have := hpair p hp; omega
  unfold readPlainSetBatch
  rw [if_neg (by rw [length_plainSetBatchPayload, plainSetBatchLength]; omega),
    readAt_putUint hcountAt, ← hzip, getUint_putUint_of_lt (hcount.trans_lt (by decide))]
  exact hpairs

theorem readJson_marshal (records : Option (List Record)) :
    readJson (marshalRecords records) =
      .ok ((records.getD []).map (Record.mapStrings toValidUtf8)) := by
  cases records with
  | none =>
    rfl
  | some records =>
    have hread : (Json.listKind recordKind).read [] _ = _ :=
      (Json.lawful_list lawful_record).read_write records
    rw [readJson, marshalRecords, Json.parseFirst_render]
    simp only [hread]
    rfl

theorem marshal_head (records : Option (List Record)) :
    (marshalRecords records).head? ≠ some plainSetFrameTag ∧
      (marshalRecords records).head? ≠ some plainSetBatchFrameTag := by
  rcases records with _ | _ | ⟨r, rs⟩
  · exact ⟨by decide, by decide⟩
  · exact ⟨by decide, by decide⟩
  · have hhead : (marshalRecords (some (r :: rs))).head? = some Json.openArr := rfl
    rw [hhead]
    exact ⟨by decide, by decide⟩

/-- The text is a frame that reads as these records. -/
def Delivers (text : Bytes) (records : List Record) : Prop :=
  ∃ p, text = envelope p ∧ p.length ≤ maxFrameBytes ∧ readPayload p = .ok records

theorem readPayload_encode {f : Frame} {text : Bytes} (h : f.encode = .ok text) :
    Delivers text (f.batch.map (Record.mapStrings toValidUtf8)) := by
  cases f with
  | generic records =>
    simp only [Frame.encode, writeFrame] at h
    split at h
    · cases h
    next hlen =>
      cases h
      refine ⟨_, rfl, Nat.le_of_not_lt hlen, ?_⟩
      rw [readPayload, if_neg (marshal_head records).1, if_neg (marshal_head records).2]
      exact readJson_marshal records
  | plainSet key value =>
    simp only [Frame.encode, encodePlainSetFrame] at h
    split at h
    · cases h
    next hlen =>
      cases h
      refine ⟨_, rfl, ?_, ?_⟩
      · simp only [plainSetPayload, cons_append, length_cons, length_append, length_putUint]
        omega
      · have htag : (plainSetPayload key value).head? = some plainSetFrameTag := rfl
        exact readPlainSet_payload (by omega)
  | plainSetBatch keys values =>
    simp only [Frame.encode, encodePlainSetBatchFrame] at h
    split at h
    · cases h
    next hvalid =>
      split at h
      · cases h
      next hlen =>
        cases h
        have heq : keys.length = values.length := by
          by_contra hne
          exact hvalid (Or.inr hne)
        refine ⟨_, rfl, ?_, ?_⟩
        · rw [length_plainSetBatchPayload]
          exact Nat.le_of_not_lt hlen
        · have htag : (plainSetBatchPayload keys values).head? = some plainSetBatchFrameTag := rfl
          rw [readPayload, htag, if_neg (by decide), if_pos rfl,
            readPlainSetBatch_payload (Nat.le_of_not_lt hlen) heq]
          simp [Frame.batch, plainRecord, Record.mapStrings]

/-! ## Rounds of the reader -/

theorem length_envelope (payload : Bytes) : (envelope payload).length = 8 + payload.length := by
  simp [envelope]
  omega

section Rounds

variable {σ : Type} {apply : σ → List Record → σ × Option Error} {payload : Bytes}

theorem hasAt_envelope (payload rest : Bytes) :
    (HasAt (envelope payload ++ rest) 0 (putUint 4 payload.length) ∧
      HasAt (envelope payload ++ rest) 4 (putUint 4 (checksumIEEE payload).toNat)) ∧
      HasAt (envelope payload ++ rest) 8 payload := by
  have h : HasAt (envelope payload ++ rest) 0 (envelope payload) := ⟨[], rest, rfl, rfl⟩
  nth_rewrite 2 [envelope] at h
  simpa only [hasAt_append, length_append, length_putUint, zero_add] using h

section

variable (hlen : payload.length ≤ maxFrameBytes)

include hlen

theorem readAt_envelope_length (rest : Bytes) :
    getUint (readAt (envelope payload ++ rest) 0 4) = payload.length := by
  rw [readAt_putUint (hasAt_envelope payload rest).1.1, getUint_length hlen]

theorem readFrames_envelope {records : List Record} {s s' : σ} {fuel offset : Nat} {rest : Bytes}
    (hread : readPayload payload = .ok records)
    (happly : apply s records = (s', none)) :
    readFrames apply (fuel + 1) (envelope payload ++ rest) offset s =
      readFrames apply fuel rest (offset + (envelope payload).length) s' := by
  have hlength := readAt_envelope_length hlen rest
  have hpayload := (hasAt_envelope payload rest).2.readAt
  have hcrc : getUint (readAt (envelope payload ++ rest) 4 4) = (checksumIEEE payload).toNat := by
    rw [readAt_putUint (hasAt_envelope payload rest).1.2]
    exact getUint_putUint_of_lt (checksumIEEE payload).toNat_lt
  have hdrop : (envelope payload ++ rest).drop (8 + payload.length) = rest :=
    drop_left' (length_envelope payload)
  have htotal : (envelope payload ++ rest).length = 8 + payload.length + rest.length := by
    rw [length_append, length_envelope]
  simp only [readFrames, hlength, hpayload, hcrc]
  rw [if_neg (by omega), if_neg (by omega), if_neg (by omega), if_neg (by simp), hread]
  simp only [happly, hdrop, length_envelope, add_assoc]

/-- A frame that was cut, in its header or in its payload, ends the log without an error. -/
theorem readFrames_torn {s : σ} {fuel offset n : Nat}
    (hcut : n < (envelope payload).length) :
    readFrames apply (fuel + 1) ((envelope payload).take n) offset s = ⟨s, offset, none⟩ := by
  have hn : ((envelope payload).take n).length = n := by
    rw [length_take, min_eq_left hcut.le]
  rw [length_envelope] at hcut
  rw [readFrames]
  by_cases hheader : n < 8
  · rw [if_pos (by omega)]
  · have hlength : getUint (readAt ((envelope payload).take n) 0 4) = payload.length := by
      rw [← readAt_envelope_length hlen [], append_nil, readAt, readAt, drop_zero,
        drop_zero, take_take, min_eq_left (by omega)]
    simp only [hlength, hn]
    rw [if_neg hheader, if_neg (by omega), if_pos (by omega)]

end

end Rounds

/-! ## Files -/

/-- How many of the texts lie completely inside the first `n` bytes of them all. -/
def whole : List Bytes → Nat → Nat
  | [], _ => 0
  | t :: ts, n => if t.length ≤ n then whole ts (n - t.length) + 1 else 0

variable {texts : List Bytes} {batches : List (List Record)}

theorem whole_of_length_le : ∀ {n : Nat}, texts.flatten.length ≤ n →
    whole texts n = texts.length := by
  induction texts with
  | nil => exact fun _ => rfl
  | cons t ts ih =>
    intro n hn
    rw [flatten_cons, length_append] at hn
    rw [whole, if_pos (by omega), ih (by omega), length_cons]

theorem readFrames_take (h : Forall₂ Delivers texts batches) :
    ∀ (n : Nat) {fuel : Nat} (offset : Nat)
      (s : List (List Record)), (texts.flatten.take n).length ≤ fuel →
        readFrames collect fuel (texts.flatten.take n) offset s =
          ⟨s ++ batches.take (whole texts n), offset + (texts.take (whole texts n)).flatten.length,
            none⟩ := by
  induction h with
  | nil =>
    intro n fuel offset s _
    cases fuel <;> simp [readFrames, whole]
  | @cons t records ts batches ht _ ih =>
    intro n fuel offset s hfuel
    rcases ht with ⟨p, rfl, hlen, hread⟩
    rw [flatten_cons] at hfuel ⊢
    have hpos := length_envelope p
    by_cases hn : (envelope p).length ≤ n
    · have hsplit : (envelope p ++ ts.flatten).take n =
          envelope p ++ ts.flatten.take (n - (envelope p).length) := by
        rw [take_append, take_of_length_le hn]
      rw [hsplit] at hfuel ⊢
      rw [length_append] at hfuel
      obtain ⟨fuel, rfl⟩ : ∃ k, fuel = k + 1 := ⟨fuel - 1, by omega⟩
      rw [readFrames_envelope hlen hread rfl, ih _ _ _ (by omega), whole, if_pos hn]
      simp [add_assoc]
    · -- the frame is cut, and nothing behind it is left
      have hcut : (envelope p ++ ts.flatten).take n = (envelope p).take n :=
        take_append_of_le_length (by omega)
      rw [hcut, whole, if_neg hn]
      cases fuel with
      | zero => simp [readFrames]
      | succ fuel =>
        rw [readFrames_torn hlen (by omega)]
        simp

theorem countP_offsets (texts : List Bytes) : ∀ base n,
    (range texts.length).countP (fun k => base + (texts.take (k + 1)).flatten.length ≤ n) =
      if base ≤ n then whole texts (n - base) else 0 := by
  induction texts with
  | nil => intro base n; simp [whole]
  | cons t ts ih =>
    intro base n
    rw [length_cons, range_succ_eq_map, countP_cons, countP_map]
    have hshift : ((fun k => decide (base + ((t :: ts).take (k + 1)).flatten.length ≤ n)) ∘
      Nat.succ) =
        fun k => decide (base + t.length + (ts.take (k + 1)).flatten.length ≤ n) := by
      funext k
      simp [add_assoc]
    rw [hshift, ih (base + t.length) n, whole]
    simp only [zero_add, take_succ_cons, take_zero, flatten_cons,
      flatten_nil, append_nil, decide_eq_true_eq]
    by_cases hfirst : base + t.length ≤ n
    · rw [if_pos hfirst, if_pos hfirst, if_pos (by omega : base ≤ n),
        if_pos (by omega : t.length ≤ n - base), Nat.sub_add_eq]
    · rw [if_neg hfirst, if_neg hfirst]
      split
      · rw [if_neg (by omega)]
      · rfl

theorem framesInside_eq (texts : List Bytes) (n : Nat) :
    framesInside texts n = if magic.length ≤ n then whole texts (n - magic.length) else 0 :=
  countP_offsets texts magic.length n

theorem readLog_take (h : Forall₂ Delivers texts batches) (n : Nat) :
    (readLog collect [] ((fileOf texts).take n)).state = batches.take (framesInside texts n) ∧
      (magic.length ≤ n → (readLog collect [] ((fileOf texts).take n)).offset =
          frameOffset texts (framesInside texts n) ∧
        (readLog collect [] ((fileOf texts).take n)).err = none) ∧
      (n < magic.length → (readLog collect [] ((fileOf texts).take n)).offset = 0) := by
  rw [framesInside_eq]
  by_cases hn : magic.length ≤ n
  · have hsplit : (fileOf texts).take n = magic ++ texts.flatten.take (n - magic.length) := by
      rw [fileOf, take_append, take_of_length_le hn]
    have hread : readLog collect [] ((fileOf texts).take n) =
        readFrames collect (magic ++ texts.flatten.take (n - magic.length)).length
          (texts.flatten.take (n - magic.length)) magic.length [] := by
      rw [hsplit, readLog, if_neg (by simp), if_neg (by simp), drop_left]
    rw [hread, readFrames_take h _ _ _ (by simp), if_pos hn]
    exact ⟨rfl, fun _ => ⟨rfl, rfl⟩, fun hlt => absurd hn (not_le.2 hlt)⟩
  · have hread : readLog collect [] ((fileOf texts).take n) =
        ⟨[], 0, some (if (fileOf texts).take n = [] then .eof else .unexpectedEOF)⟩ := by
      rw [readLog, if_pos (by rw [length_take]; omega)]
    rw [hread, if_neg hn]
    exact ⟨rfl, fun hle => absurd hle hn, fun _ => rfl⟩

theorem framesInside_length (texts : List Bytes) :
    framesInside texts (fileOf texts).length = texts.length := by
  rw [framesInside_eq, fileOf, length_append, if_pos (by omega), whole_of_length_le (by omega)]

theorem readLog_file (h : Forall₂ Delivers texts batches) :
    (readLog collect [] (fileOf texts)).state = batches := by
  have hread := (readLog_take h (fileOf texts).length).1
  rwa [take_length, framesInside_length, h.length_eq, take_length] at hread

/-! ## The log -/

/-- Reading the first `n` bytes of the file delivers exactly the batches whose frames lie inside
them, and the offset where the last of these ends. -/
structure DeliversPrefix (frames : List Frame) (texts : List Bytes) (n : Nat) : Prop where
  batches : (readLog collect [] ((fileOf texts).take n)).state =
    (frames.map Frame.batch).take (framesInside texts n)
  offset : magic.length ≤ n → (readLog collect [] ((fileOf texts).take n)).offset =
      frameOffset texts (framesInside texts n) ∧
    (readLog collect [] ((fileOf texts).take n)).err = none
  short : n < magic.length → (readLog collect [] ((fileOf texts).take n)).offset = 0

def delivered (f : Frame) : List Record :=
  f.batch.map (Record.mapStrings toValidUtf8)

theorem delivers_frames {frames : List Frame}
    (h : Forall₂ (fun f t => f.encode = .ok t) frames texts) :
    Forall₂ Delivers texts (frames.map delivered) := by
  induction h with
  | nil => exact .nil
  | cons hf _ ih => exact .cons (readPayload_encode hf) ih

theorem delivered_eq_batch {f : Frame} :
    delivered f = f.batch ↔ ∀ r ∈ f.batch, ∀ s ∈ r.strings, validUtf8 s = true := by
  simp only [delivered, map_eq_self, Record.mapStrings_eq_self, toValidUtf8_eq_self_iff]

/-- A log delivers what was written, at every prefix, exactly when the strings in its generic
frames are valid UTF-8. -/
theorem log_delivers_iff {frames : List Frame} {texts : List Bytes}
    (h : List.Forall₂ (fun f t => f.encode = .ok t) frames texts) :
    (∀ n, DeliversPrefix frames texts n) ↔
      ∀ f ∈ frames, ∀ r ∈ f.batch, ∀ s ∈ r.strings, validUtf8 s = true := by
  have hread := readLog_take (delivers_frames h)
  constructor
  · intro hall
    -- a prefix that is the whole file delivers every batch
    have hbatches := (hall (fileOf texts).length).batches
    rw [take_length, readLog_file (delivers_frames h), framesInside_length, ← h.length_eq,
      take_of_length_le (by simp)] at hbatches
    intro f hf
    exact delivered_eq_batch.1 (map_inj_left.1 hbatches f hf)
  · intro hvalid n
    have hsame : frames.map delivered = frames.map Frame.batch :=
      map_congr_left fun f hf => delivered_eq_batch.2 (hvalid f hf)
    rw [hsame] at hread
    exact ⟨(hread n).1, (hread n).2.1, (hread n).2.2⟩

/-- A stream with a group of that name, as a client may choose it. -/
def groupRecord (name : Bytes) : Record :=
  { key := some (ascii "s"), stream := some { groupOps := [{ name := name, set := true }] } }

theorem encode_groupRecord {name : Bytes}
    (hsize : (marshalRecords (some [groupRecord name])).length ≤ maxFrameBytes) :
    Frame.encode (.generic (some [groupRecord name])) =
      .ok (envelope (marshalRecords (some [groupRecord name]))) := by
  simp only [Frame.encode, writeFrame, if_neg (not_lt.2 hsize)]

/-- A frame of each kind. -/
def eachKind : List Frame :=
  [.plainSet (ascii "key") (ascii "value"), .generic (some [groupRecord (ascii "group")]),
    .plainSetBatch [[0xFF]] [[]]]

theorem log_delivers_eachKind :
    ∃ texts, List.Forall₂ (fun f t => Frame.encode f = .ok t) eachKind texts ∧
      ∀ n, DeliversPrefix eachKind texts n := by
  have h : List.Forall₂ (fun f t => Frame.encode f = .ok t) eachKind _ :=
    .cons rfl (.cons (encode_groupRecord (by decide +kernel)) (.cons rfl .nil))
  exact ⟨_, h, (log_delivers_iff h).2 (by decide +kernel)⟩

/-- The byte `0xFF` as a name. -/
def misnamedGroup : Record := groupRecord [0xFF]

/-- The name of such a group comes back as the replacement character. -/
theorem group_name_changes :
    ∃ texts, List.Forall₂ (fun f t => Frame.encode f = .ok t)
      [.generic (some [misnamedGroup])] texts ∧
      (readLog collect [] (fileOf texts)).state ≠ [[misnamedGroup]] := by
  have h : List.Forall₂ (fun f t => Frame.encode f = .ok t) [.generic (some [misnamedGroup])]
      [envelope (marshalRecords (some [misnamedGroup]))] :=
    .cons (encode_groupRecord (by decide +kernel)) .nil
  refine ⟨_, h, ?_⟩
  rw [readLog_file (delivers_frames h)]
  decide +kernel

end Persistence
end SnugKV
