import SnugKV.Codec.Exact
import SnugKV.Codec.Registry
import SnugKV.Lib.Action

/-!
# Losslessness — every record the registry makes reads back

A record is either checked by a decode when it is made, or made by one of the exact codecs.
Either way its codec's decoder returns the value; `Agrees` carries that to `DecodeInto`, for
every destination, and `lossless_of_decode` to the two readers of the registry.
-/

namespace SnugKV
namespace Codecs

open Lib List

variable {p : Platform}

/-! ## The two decoders of a codec -/

/-- What `Decode` returns, `DecodeInto` returns for every destination. -/
def Agrees (c : Codec) : Prop :=
  ∀ into, c.decodeInto = some into → ∀ {data out : Bytes} {n : Nat},
    c.decode data n = .ok out → ∀ dst, into data n dst = .ok out

variable {c : Codec} {raw q src : Bytes} {r : Bytes × Bytes} {rec : Record} {data : Bytes}

theorem agrees_appending (h : c.decodeInto = appending c.decode) : Agrees c := by
  intro into hinto data out n hdec dst
  rw [h] at hinto
  cases hinto
  simp [hdec, Except.map]

theorem writeAt_reslice {dst out : Bytes} {n : Nat} (h : out.length = n) :
    writeAt (reslice dst n) 0 out = out := by
  have hlen := length_reslice dst n
  rw [writeAt, take_zero, nil_append, zero_add, drop_eq_nil_of_le (by omega), append_nil]

theorem rawCodec_agrees : Agrees rawCodec := by
  intro into hinto data out n hdec dst
  cases hinto
  simp only [rawCodec, rawDecode] at hdec
  split_ifs at hdec with hlen
  cases hdec
  rw [rawDecodeInto, if_neg hlen, writeAt_reslice (not_not.1 hlen)]

theorem repeatByteCodec_agrees : Agrees repeatByteCodec := by
  intro into hinto data out n hdec dst
  cases hinto
  simp only [repeatByteCodec, repeatByteDecode] at hdec
  split at hdec
  next b =>
    cases hdec
    rw [repeatByteDecodeInto, map_const', length_reslice]
  next => cases hdec

theorem periodicCodec_agrees : Agrees periodicCodec := by
  intro into hinto data out n hdec dst
  cases hinto
  simp only [periodicCodec, periodicDecode] at hdec
  split_ifs at hdec with hbad
  cases hdec
  rw [periodicDecodeInto, if_neg hbad]
  rcases @expandPeriodic_spec data (reslice dst n) (by omega) (by rw [length_reslice]; omega) with
    ⟨hlen, hfilled⟩
  rcases @expandPeriodic_spec data (replicate n 0) (by omega) (by simp; omega) with
    ⟨hlen', hfilled'⟩
  rw [length_reslice] at hlen hfilled
  rw [length_replicate] at hlen' hfilled'
  congr 1
  refine ext_getElem? fun i => ?_
  by_cases hi : i < n
  · rw [hfilled i hi, hfilled' i hi]
  · rw [getElem?_eq_none (by omega), getElem?_eq_none (by omega)]

theorem lz4Codec_agrees : Agrees (lz4Codec p) := by
  intro into hinto data out n hdec dst
  cases hinto
  rw [lz4DecodeInto, length_reslice]
  exact hdec

theorem zstdCodec_agrees : Agrees (zstdCodec p) := by
  intro into hinto data out n hdec dst
  cases hinto
  simp only [zstdCodec, zstdDecode, zstdDecodeCap, zstdDecodeAll] at hdec
  simp only [zstdDecodeInto, zstdDecodeCap, zstdDecodeAll]
  split_ifs at hdec ⊢ with hmax
  cases hcontent : p.zstdContent data with
  | none => simp [hcontent] at hdec
  | some content =>
    simp only [hcontent] at hdec ⊢
    by_cases hfit : n < content.length
    · simp [hfit] at hdec
    · simpa [hfit] using hdec

theorem length_account {bs : Bytes} {off : Nat} (h : raw.length = tokenAccountSize)
    (hfit : off + bs.length ≤ tokenAccountSize) :
    (writeAt raw off bs).length = tokenAccountSize := by
  rw [length_writeAt (by omega), h]

theorem length_tokenTake {size : Nat} (h : tokenTake size q = .ok r) : r.1.length = size := by
  unfold tokenTake at h
  split_ifs at h with hlen
  cases h
  rw [length_take]
  omega

section

variable (hraw : raw.length = tokenAccountSize) {present : Bool}

include hraw

theorem length_tokenAmount {off : Nat}
    (hfit : off + 8 ≤ tokenAccountSize) (h : tokenAmount off raw q = .ok r) :
    r.1.length = tokenAccountSize := by
  rcases bind_eq_ok h with ⟨_, _, hok⟩
  cases hok
  exact length_account hraw (by simpa using hfit)

theorem length_tokenKey {tagOff off : Nat}
    (htag : tagOff + 4 ≤ tokenAccountSize) (hfit : off + 32 ≤ tokenAccountSize)
    (h : tokenKey present tagOff off raw q = .ok r) : r.1.length = tokenAccountSize := by
  unfold tokenKey at h
  split at h
  · rcases bind_eq_ok h with ⟨taken, htake, hok⟩
    cases hok
    have hlen := length_tokenTake htake
    exact length_account (length_account hraw (by simpa using htag)) (by rw [hlen]; exact hfit)
  · cases h
    exact hraw

theorem length_tokenNative
    (h : tokenNative present raw q = .ok r) : r.1.length = tokenAccountSize := by
  unfold tokenNative at h
  split at h
  · exact length_tokenAmount (length_account hraw (by decide)) (by decide) h
  · cases h
    exact hraw

theorem length_tokenFields {flags : UInt8} {out : Bytes}
    (h : tokenFields flags raw q = .ok out) : out.length = tokenAccountSize := by
  rcases bind_eq_ok h with ⟨r₁, hamount, h⟩
  rcases bind_eq_ok h with ⟨r₂, hdelegate, h⟩
  rcases bind_eq_ok h with ⟨r₃, hnative, h⟩
  rcases bind_eq_ok h with ⟨r₄, hdelegated, h⟩
  rcases bind_eq_ok h with ⟨r₅, hclose, h⟩
  have h₁ := length_tokenAmount hraw (by decide) hamount
  have h₂ := length_tokenKey h₁ (by decide) (by decide) hdelegate
  have hstate := @length_account r₂.1 [(flags &&& tokenStateMask) >>> tokenStateShift] offState h₂
    (by simp [offState, tokenAccountSize])
  have h₃ := length_tokenNative hstate hnative
  have h₄ := length_tokenAmount h₃ (by decide) hdelegated
  have h₅ := length_tokenKey h₄ (by decide) (by decide) hclose
  simp only at h
  split_ifs at h
  cases h
  exact h₅

end

theorem length_tokenAccountOf (h : tokenAccountOf src = .ok raw) :
    raw.length = tokenAccountSize := by
  unfold tokenAccountOf at h
  split at h
  · cases h
  next flags q =>
    split_ifs at h
    refine length_tokenFields (length_account length_replicate ?_) h
    rw [length_take]
    unfold offMint tokenAccountSize
    omega

theorem solanaTokenCodec_agrees : Agrees solanaTokenCodec := by
  intro into hinto data out n hdec dst
  cases hinto
  simp only [solanaTokenCodec, tokenDecode] at hdec
  rw [tokenDecodeInto]
  by_cases hlen : n ≠ tokenAccountSize ∧ n ≠ tokenAccountB64Size
  · rw [if_pos hlen] at hdec
    cases hdec
  · rw [if_neg hlen] at hdec ⊢
    cases hraw : tokenAccountOf data with
    | error e => simp [hraw] at hdec
    | ok raw =>
      have hb64 : (base64Encode raw).length = tokenAccountB64Size := by
        rw [length_base64Encode, length_tokenAccountOf hraw]
        rfl
      simpa [hraw, writeAt_reslice hb64] using hdec

theorem order_agrees : ∀ c ∈ order p, Agrees c := by
  intro c hc
  simp only [order, mem_cons, not_mem_nil, or_false] at hc
  rcases hc with rfl | rfl | rfl | rfl | rfl | rfl | rfl | rfl | rfl | rfl | rfl | rfl | rfl | rfl |
    rfl | rfl
  · exact rawCodec_agrees
  · exact agrees_appending rfl
  · exact agrees_appending rfl
  · exact agrees_appending rfl
  · exact agrees_appending rfl
  · exact agrees_appending rfl
  · exact agrees_appending rfl
  · intro into hinto
    cases hinto
  · exact repeatByteCodec_agrees
  · exact lz4Codec_agrees
  · exact zstdCodec_agrees
  · exact periodicCodec_agrees
  · exact agrees_appending rfl
  · exact agrees_appending rfl
  · exact agrees_appending rfl
  · exact solanaTokenCodec_agrees

/-! ## The readers of the registry -/

/-- The record is no longer than the value, and both readers return the value. -/
structure Lossless (p : Platform) (rec : Record) (src : Bytes) : Prop where
  shorter : rec.data.length ≤ src.length
  decode : ∀ max, src.length ≤ max → decode p rec max = .ok src
  decodeInto : ∀ max dst, src.length ≤ max → decodeInto p rec max dst = .ok src

theorem codecOf_of_mem (hc : c ∈ order p) : codecOf p c.id = some c ∧ c.id ≠ .jsonShape := by
  simp only [order, mem_cons, not_mem_nil, or_false] at hc
  rcases hc with rfl | rfl | rfl | rfl | rfl | rfl | rfl | rfl | rfl | rfl | rfl | rfl | rfl | rfl |
    rfl | rfl <;> exact ⟨rfl, ID.noConfusion⟩

theorem decodeInto_eq (hc : c ∈ order p) {n : Nat} (max : Nat) (dst : Bytes)
    (hmax : n ≤ max) : decodeInto p { id := c.id, rawLength := n, data } max dst =
      match c.decodeInto with
      | some into => checkLength n (into data n dst)
      | none => decode p { id := c.id, rawLength := n, data } max := by
  have hle : ¬ max < n := not_lt.2 hmax
  simp only [order, mem_cons, not_mem_nil, or_false] at hc
  rcases hc with rfl | rfl | rfl | rfl | rfl | rfl | rfl | rfl | rfl | rfl | rfl | rfl | rfl | rfl |
    rfl | rfl <;> (rw [Codecs.decodeInto, if_neg hle]; rfl)

theorem lossless_of_decode (hc : c ∈ order p) (hshort : data.length ≤ src.length)
    (hdec : c.decode data src.length = .ok src) :
    Lossless p { id := c.id, rawLength := src.length, data } src := by
  rcases codecOf_of_mem hc with ⟨hfind, hid⟩
  have hread : ∀ max, src.length ≤ max →
      decode p { id := c.id, rawLength := src.length, data } max = .ok src := by
    intro max hmax
    simp [Codecs.decode, not_lt.2 hmax, hid, hfind, hdec, checkLength]
  refine ⟨hshort, hread, ?_⟩
  intro max dst hmax
  rw [decodeInto_eq hc max dst hmax]
  cases hinto : c.decodeInto with
  | none => exact hread max hmax
  | some into => simp [order_agrees c hc into hinto hdec dst, checkLength]

theorem lossless_raw (src : Bytes) : Lossless p (rawRecord src) src :=
  lossless_of_decode (c := rawCodec) (by simp [order]) le_rfl (by simp [rawCodec, rawDecode])

theorem decode_of_readsBack (h : readsBack c data src = true) :
    c.decode data src.length = .ok src := by
  unfold readsBack at h
  split at h
  · cases h
  next out hout =>
    rw [hout, beq_iff_eq.1 h]

/-- A candidate is taken only if it reads back and is shorter than the best so far. -/
theorem lossless_consider (hc : c ∈ order p) {best : Record} (hbest : Lossless p best src) :
    Lossless p (consider src best c) src := by
  unfold consider
  split
  · exact hbest
  next data hdata =>
    split_ifs with hlong hback
    · exact hbest
    · exact hbest
    · have hread := decode_of_readsBack (by simpa using hback)
      exact lossless_of_decode hc (by have := hbest.shorter; omega) hread

theorem lossless_foldl {cs : List Codec} : ∀ {best : Record},
    (∀ c ∈ cs, c ∈ order p) → Lossless p best src →
      Lossless p (cs.foldl (consider src) best) src := by
  induction cs with
  | nil =>
    intro best _ hbest
    exact hbest
  | cons c cs ih =>
    intro best hmem hbest
    exact ih (fun d hd => hmem d (mem_cons_of_mem _ hd))
      (lossless_consider (hmem c mem_cons_self) hbest)

/-! ## The encoders -/

theorem lossless_direct (hc : c ∈ order p) (hexact : ∀ data, c.encode src = some data →
      data.length ≤ src.length ∧ c.decode data src.length = .ok src) (h : direct c src = some rec) :
    Lossless p rec src := by
  rcases Option.map_eq_some_iff.1 h with ⟨data, hdata, rfl⟩
  rcases hexact data hdata with ⟨hshort, hdec⟩
  exact lossless_of_decode hc hshort hdec

theorem lossless_integer (h : encodeInteger src = some rec) : Lossless p rec src := by
  unfold encodeInteger at h
  split_ifs at h
  split at h
  · cases h
  next n hn =>
    split_ifs at h with hshort
    cases h
    exact lossless_of_decode (c := integerCodec) (by simp [order]) hshort.le
      (integerDecode_putVarint hn src.length)

theorem lossless_hex (h : encodeHexForeground src = some rec) : Lossless p rec src := by
  unfold encodeHexForeground at h
  split_ifs at h
  split at h
  · cases h
  next data hdata =>
    split_ifs at h with hlong hdecimal hback
    cases h
    exact lossless_of_decode (c := hexCodec) (by simp [order]) (by omega)
      (decode_of_readsBack (by simpa using hback))

theorem lossless_solana (h : encodeSolanaTokenAccount src = some rec) : Lossless p rec src := by
  unfold encodeSolanaTokenAccount at h
  split_ifs at h
  split at h
  · cases h
  next data hdata =>
    split_ifs at h with hlong hback
    cases h
    exact lossless_of_decode (c := solanaTokenCodec) (by simp [order]) (by omega)
      (decode_of_readsBack (by simpa using hback))

theorem lossless_scan (src : Bytes) : Lossless p (scanScalars p src) src := by
  unfold scanScalars
  split_ifs
  · exact lossless_raw src
  · exact lossless_raw src
  · -- leaving a codec out is a scan over fewer candidates
    have hskip : ∀ (cs : List Codec) (best : Record),
        cs.foldl (fun best c => if scanSkips c.id then best else consider src best c) best =
          (cs.filter (fun c => !scanSkips c.id)).foldl (consider src) best := by
      intro cs best
      rw [foldl_filter]
      congr 1
      funext best c
      by_cases hc : scanSkips c.id = true <;> simp [hc]
    rw [hskip]
    exact lossless_foldl (fun c hc => mem_of_mem_filter hc) (lossless_raw src)

theorem lossless_uuid (hlen : src.length = 36) (h : direct uuidCodec src = some rec) :
    Lossless p rec src := by
  refine lossless_direct (c := uuidCodec) (by simp [order]) (fun data hdata => ?_) h
  have hdec := uuidDecode_encode hdata src.length
  refine ⟨?_, hdec⟩
  unfold uuidDecode at hdec
  split_ifs at hdec
  omega

theorem lossless_ulid (hlen : src.length = 26) (h : direct ulidCodec src = some rec) :
    Lossless p rec src := by
  refine lossless_direct (c := ulidCodec) (by simp [order]) (fun data hdata => ?_) h
  have hdec := ulidDecode_encode hdata src.length
  refine ⟨?_, hdec⟩
  unfold ulidDecode at hdec
  split_ifs at hdec
  omega

/-- The write path, case by case in the order it tries the codecs. -/
theorem lossless_encode (src : Bytes) : Lossless p (encode p src) src := by
  unfold encode
  rcases huuid : (if src.length = 36 then direct uuidCodec src else none) with _ | rec
  · rcases hulid : (if src.length = 26 then direct ulidCodec src else none) with _ | rec
    · rcases hint : encodeInteger src with _ | rec
      · rcases hhex : encodeHexForeground src with _ | rec
        · rcases hsolana : encodeSolanaTokenAccount src with _ | rec
          · exact lossless_scan src
          · exact lossless_solana hsolana
        · exact lossless_hex hhex
      · exact lossless_integer hint
    · split_ifs at hulid with hlen
      exact lossless_ulid hlen hulid
  · split_ifs at huuid with hlen
    exact lossless_uuid hlen huuid

theorem lossless_general (src : Bytes) (cold : Bool) :
    Lossless p (encodeGeneral p src cold) src := by
  rw [encodeGeneral]
  by_cases hraw : src.length < 256 ∨ alreadyCompressed src = true
  · rw [if_pos hraw]
    exact lossless_raw src
  · rw [if_neg hraw]
    split
    next rec hrec =>
      exact lossless_direct (c := repeatByteCodec) (by simp [order])
        (fun data hdata => repeatByteDecode_encode hdata) hrec
    next =>
      have hbest : Lossless p ((direct periodicCodec src).getD (rawRecord src)) src := by
        cases hper : direct periodicCodec src with
        | none => exact lossless_raw src
        | some rec =>
          exact lossless_direct (c := periodicCodec) (by simp [order])
            (fun data hdata => periodicDecode_encode hdata) hper
      simp only
      split
      · exact hbest
      · refine lossless_foldl (fun c hc => ?_) hbest
        unfold blockCodecs at hc
        split at hc <;> simp only [mem_cons, not_mem_nil, or_false] at hc
        · rcases hc with rfl | rfl <;> simp [order]
        · subst hc
          simp [order]

theorem lossless_identifier (h : encodeIdentifier src = some rec) : Lossless p rec src := by
  simp only [encodeIdentifier] at h
  split_ifs at h
  cases h
  refine lossless_foldl (fun c hc => ?_) (lossless_raw src)
  simp only [identifierCodecs, mem_append, mem_ite_nil_right, mem_singleton] at hc
  rcases hc with (⟨_, rfl⟩ | ⟨_, rfl⟩) | ⟨_, rfl⟩ <;> simp [order]

/-- Whatever codec the registry selects, on the write path, in the background or for an
identifier, the record is no longer than the value and both readers return the value. -/
theorem registry_lossless (p : Platform) (src : Bytes) :
    Lossless p (encode p src) src ∧ (∀ cold, Lossless p (encodeGeneral p src cold) src) ∧
      ∀ rec, encodeIdentifier src = some rec → Lossless p rec src :=
  ⟨lossless_encode src, lossless_general src, fun _ h => lossless_identifier h⟩

def bare : Platform where
  parseFloat _ := none
  formatFloat _ := []
  parseTime _ := none
  formatTime _ := []
  yearOf _ := 0
  lz4Compress _ := none
  lz4Uncompress _ _ := none
  zstdEncode src := src
  zstdContent _ := none
  shapeDecode _ _ := .error "invalid shape"

/-- A UUID in lower case takes sixteen bytes. -/
theorem registry_lossless_uuid :
    let src := ascii "0190abcd-0000-7000-8000-0000000000ff"
    (encode bare src).id = .uuid ∧ (encode bare src).data.length = 16 ∧
      decodeInto bare (encode bare src) 36 [1, 2, 3] = .ok src :=
  ⟨by decide +kernel, by decide +kernel,
    (registry_lossless bare _).1.decodeInto 36 [1, 2, 3] (by decide)⟩

end Codecs
end SnugKV
