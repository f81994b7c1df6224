import SnugKV.Codec.Compression

/-!
# Exact codecs — the forms that are trusted without a decode

Integers, UUIDs, ULIDs, repeated bytes and short periods are written without a check that they
read back.  Each of them is shown here to accept only texts that its decoder prints:
`integerDecode_putVarint`, `uuidDecode_encode`, `ulidDecode_encode`, `repeatByteDecode_encode`
and `periodicDecode_encode`.
-/

namespace SnugKV
namespace Codecs

open Lib List

/-! ## Integers -/

/-- The loop accepts digits only, and its result is their value, within the limit. -/
theorem scanDigits_spec {limit : Nat} (hlimit : 9 ≤ limit) :
    ∀ {src : Bytes} {magnitude out : Nat}, magnitude ≤ limit →
      scanDigits limit magnitude src = some out →
        (∀ b ∈ src, isDigit b = true) ∧ out = valueFrom 10 magnitude (src.map digitOf) ∧
          out ≤ limit := by
  intro src
  induction src with
  | nil =>
    intro magnitude out hle h
    cases h
    exact ⟨by simp, rfl, hle⟩
  | cons b rest ih =>
    intro magnitude out _ h
    rw [scanDigits] at h
    split_ifs at h with hdigit hover
    have hb : isDigit b = true := by simpa using hdigit
    have hlt := (digitOf_spec b hb).1
    rcases ih (by omega) h with ⟨hrest, hvalue, hout⟩
    refine ⟨?_, hvalue, hout⟩
    exact forall_mem_cons.2 ⟨hb, hrest⟩

theorem formatUint_valueFrom {b : UInt8} {rest : Bytes}
    (hdigits : ∀ c ∈ b :: rest, isDigit c = true)
    (hlead : b ≠ digit0 ∨ rest = []) :
    formatUint (valueFrom 10 0 ((b :: rest).map digitOf)) = b :: rest := by
  have hb := digitOf_spec b (hdigits b mem_cons_self)
  have htext : textDigits 10 (valueFrom 10 0 ((b :: rest).map digitOf)) =
      (b :: rest).map digitOf := by
    refine textDigits_valueFrom (by decide) ?_ ?_
    · intro d hd
      rw [← map_cons] at hd
      rcases mem_map.1 hd with ⟨c, hc, rfl⟩
      exact (digitOf_spec c (hdigits c hc)).1
    · rcases hlead with hlead | hlead
      · exact Or.inl (fun h0 => hlead (hb.2.2.1 h0))
      · exact Or.inr (by rw [hlead]; rfl)
  rw [formatUint, htext, map_map]
  refine (map_congr_left fun c hc => ?_).trans (map_id _)
  exact (digitOf_spec c (hdigits c hc)).2.1

theorem formatUint_scanDigits {limit m : Nat} {digits : Bytes} (hlimit : 9 ≤ limit)
    (hne : digits ≠ []) (hzero : ¬ (digits.head? = some digit0 ∧ 1 < digits.length))
    (hscan : scanDigits limit 0 digits = some m) : formatUint m = digits ∧ m ≤ limit := by
  rcases scanDigits_spec hlimit (Nat.zero_le _) hscan with ⟨hdigits, hvalue, hle⟩
  cases digits with
  | nil => exact absurd rfl hne
  | cons c tail =>
    have hlead : c ≠ digit0 ∨ tail = [] := by
      by_cases hc : c = digit0
      · simpa [hc] using hzero
      · exact Or.inl hc
    rw [hvalue] at hle ⊢
    exact ⟨formatUint_valueFrom hdigits hlead, hle⟩

variable {src data : Bytes}

theorem formatInt_canonical {n : Int} (h : canonicalInt64Bytes src = some n) :
    formatInt n = src ∧ -(2 ^ 63) ≤ n ∧ n < 2 ^ 63 := by
  cases src with
  | nil => cases h
  | cons b rest =>
    have hmax : maxInt64 = 2 ^ 63 - 1 := rfl
    by_cases hneg : b = minusSign
    · -- a sign and at least one digit
      subst hneg
      simp only [canonicalInt64Bytes, beq_self_eq_true, if_true, true_and, Bool.not_true,
        Bool.false_eq_true, if_false] at h
      split_ifs at h with hempty _ hzero
      split at h
      · cases h
      next m hscan =>
        rcases formatUint_scanDigits (by decide) hempty hzero hscan with ⟨htext, hle⟩
        split_ifs at h with hm
        cases h
        rcases m with _ | m
        · exact absurd rfl hm
        · have hint : -((m + 1 : Nat) : Int) = Int.negSucc m := rfl
          rw [hint]
          refine ⟨by rw [formatInt, htext], ?_, ?_⟩ <;> omega
    · have hbeq : (b == minusSign) = false := by simpa using hneg
      simp only [canonicalInt64Bytes, hbeq, Bool.false_eq_true, if_false, false_and,
        Bool.not_false, if_true] at h
      split_ifs at h with _ hzero
      split at h
      · cases h
      next m hscan =>
        rcases formatUint_scanDigits (by decide) (by simp) hzero hscan with ⟨htext, hle⟩
        cases h
        exact ⟨htext, by omega, by omega⟩

theorem varint_putVarint {n : Int} (hlo : -(2 ^ 63) ≤ n) (hhi : n < 2 ^ 63) (rest : Bytes) :
    varint (putVarint n ++ rest) = some (n, (putVarint n).length) := by
  cases n with
  | ofNat n =>
    have h64 : 2 * n < 2 ^ 64 := by
      have : (n : Int) < 2 ^ 63 := hhi
      omega
    simp [varint, putVarint, uvarint_putUvarint h64]
  | negSucc n =>
    have h64 : 2 * n + 1 < 2 ^ 64 := by omega
    have hodd : (2 * n + 1) % 2 = 1 := by omega
    have hhalf : (2 * n + 1) / 2 = n := by omega
    simp [varint, putVarint, uvarint_putUvarint h64, hodd, hhalf]

theorem integerDecode_putVarint {n : Int} (h : canonicalInt64Bytes src = some n) (k : Nat) :
    integerDecode (putVarint n) k = .ok src := by
  rcases formatInt_canonical h with ⟨htext, hlo, hhi⟩
  have hread := varint_putVarint hlo hhi []
  rw [append_nil] at hread
  simp [integerDecode, hread, htext]

/-! ## UUIDs -/

theorem uuidHexNibble_spec : ∀ b v : UInt8, uuidHexNibble b = some v →
    v < 16 ∧ hexDigits.getD v.toNat 0 = b := by
  intro b
  refine forall_byte (P := fun b => ∀ v, uuidHexNibble b = some v →
    v < 16 ∧ hexDigits.getD v.toNat 0 = b) ?_ b
  intro n v h
  have : ∀ n : Fin 256, ((uuidHexNibble (UInt8.ofNat n.val)).all fun v =>
      decide (v < 16) && (hexDigits.getD v.toNat 0 == UInt8.ofNat n.val)) = true := by
    decide +kernel
  have := this n
  rw [h] at this
  simpa using this

theorem uuidHex_pack : ∀ hi lo : UInt8, hi < 16 → lo < 16 →
    uuidHex (hi <<< 4 ||| lo) = [hexDigits.getD hi.toNat 0, hexDigits.getD lo.toNat 0] := by
  have hall : ∀ i j : Fin 16, uuidHex (UInt8.ofNat i.val <<< 4 ||| UInt8.ofNat j.val) =
      [hexDigits.getD i.val 0, hexDigits.getD j.val 0] := by
    decide +kernel
  intro hi lo hhi hlo
  have := hall ⟨hi.toNat, by simpa [UInt8.lt_iff_toNat_lt] using hhi⟩
    ⟨lo.toNat, by simpa [UInt8.lt_iff_toNat_lt] using hlo⟩
  simpa [UInt8.ofNat_toNat] using this

/-- Where the text of output byte `i` starts, its dash included. -/
def uuidStart (i : Nat) : Nat :=
  2 * i + ([4, 6, 8, 10].filter (· < i)).length

theorem uuidStart_spec : ∀ i : Fin 16,
    (uuidStart i.val ∈ uuidDashes ↔ i.val ∈ [4, 6, 8, 10]) ∧
      uuidStart (i.val + 1) =
        (if uuidStart i.val ∈ uuidDashes then uuidStart i.val + 1 else uuidStart i.val) + 2 ∧
      uuidStart (i.val + 1) ≤ 36 := by
  decide

theorem drop_eq_getD_cons {l : Bytes} {i : Nat} (h : i < l.length) :
    l.drop i = l.getD i 0 :: l.drop (i + 1) := by
  rw [drop_eq_getElem_cons h, getD_eq_getElem _ _ h]

theorem uuidText_pack (hlen : src.length = 36) (hdash : ∀ i ∈ uuidDashes, src.getD i 0 = dash) :
    ∀ {n i : Nat} {out : Bytes}, i + n = 16 → uuidPack src n (uuidStart i) = some out →
      out.length = n ∧ uuidText i out = src.drop (uuidStart i) := by
  intro n
  induction n with
  | zero =>
    intro i out hi h
    have h16 : i = 16 := hi
    subst h16
    cases h
    exact ⟨rfl, (drop_eq_nil_of_le hlen.le).symm⟩
  | succ n ih =>
    intro i out hi h
    rcases uuidStart_spec ⟨i, by omega⟩ with ⟨hiff, hnext, hle⟩
    simp only at hiff hnext hle
    have hbefore : uuidStart i <
        (if uuidStart i ∈ uuidDashes then uuidStart i + 1 else uuidStart i) + 2 := by
      split <;> omega
    set si := if uuidStart i ∈ uuidDashes then uuidStart i + 1 else uuidStart i with hsi
    rw [uuidPack] at h
    split at h
    next hi' lo' hhi hlo =>
      rcases Option.map_eq_some_iff.1 h with ⟨rest, hrest, rfl⟩
      rw [← hnext] at hrest
      rcases ih (by omega) hrest with ⟨hlength, htext⟩
      rcases uuidHexNibble_spec _ _ hhi with ⟨hhi16, hhichar⟩
      rcases uuidHexNibble_spec _ _ hlo with ⟨hlo16, hlochar⟩
      refine ⟨by rw [length_cons, hlength], ?_⟩
      -- the two digits of this byte, and the dash in front of some
      have hpair : uuidHex (hi' <<< 4 ||| lo') ++ src.drop (uuidStart (i + 1)) = src.drop si := by
        rw [uuidHex_pack _ _ hhi16 hlo16, hhichar, hlochar, hnext,
          drop_eq_getD_cons (l := src) (i := si) (by omega),
          drop_eq_getD_cons (l := src) (i := si + 1) (by omega)]
        rfl
      rw [uuidText, htext, append_assoc, hpair]
      by_cases hmem : i ∈ [4, 6, 8, 10]
      · have hstart := hiff.2 hmem
        rw [if_pos hmem, drop_eq_getD_cons (l := src) (i := uuidStart i) (by omega),
          hdash _ hstart, hsi, if_pos hstart]
        rfl
      · rw [if_neg hmem, hsi, if_neg (fun hstart => hmem (hiff.1 hstart))]
        rfl
    next => cases h

theorem uuidDecode_encode (h : uuidEncode src = some data) (k : Nat) :
    uuidDecode data k = .ok src := by
  unfold uuidEncode at h
  split_ifs at h with hlen hdash
  have hlen36 : src.length = 36 := not_not.1 hlen
  have hdashes : ∀ i ∈ uuidDashes, src.getD i 0 = dash := by
    intro i hi
    by_contra hne
    exact hdash (any_eq_true.2 ⟨i, hi, by simpa using hne⟩)
  rcases uuidText_pack (i := 0) hlen36 hdashes rfl h with ⟨hlength, htext⟩
  rw [uuidDecode, if_neg (not_not.2 hlength), htext]
  rfl

/-! ## ULIDs -/

theorem ulidDecodeValue_spec {b v : UInt8} (h : ulidDecodeValue b = some v) :
    v.toNat < 32 ∧ ulidAlphabet.getD v.toNat 0 = b := by
  have hall : ∀ b : UInt8, ((ulidDecodeValue b).all fun v =>
      decide (v.toNat < 32) && (ulidAlphabet.getD v.toNat 0 == b)) = true :=
    forall_byte (by decide +kernel)
  have := hall b
  rw [h] at this
  simpa using this

theorem ulid_values : ∀ {src vs : Bytes}, src.mapM ulidDecodeValue = some vs →
    (∀ v ∈ vs, v.toNat < 32) ∧ vs.map (fun v => ulidAlphabet.getD v.toNat 0) = src
  | [], vs, h => by
      cases h
      simp
  | b :: src, vs, h => by
      rw [mapM_cons] at h
      rcases Option.bind_eq_some_iff.1 h with ⟨v, hv, h⟩
      rcases Option.bind_eq_some_iff.1 h with ⟨rest, hrest, h⟩
      cases h
      rcases ulid_values hrest with ⟨hlt, htext⟩
      rcases ulidDecodeValue_spec hv with ⟨hv32, hchar⟩
      refine ⟨?_, by rw [map_cons, hchar, htext]⟩
      exact forall_mem_cons.2 ⟨hv32, hlt⟩

theorem map_toNat_ofNat {ds : List Nat} (h : ∀ d ∈ ds, d < 2 ^ 8) :
    (ds.map UInt8.ofNat).map UInt8.toNat = ds := by
  rw [map_map]
  refine (map_congr_left fun d hd => ?_).trans (map_id _)
  have := h d hd
  simp only [Function.comp_apply, UInt8.toNat_ofNat', id]
  omega

theorem ulidDecode_encode (h : ulidEncode src = some data) (k : Nat) :
    ulidDecode data k = .ok src := by
  unfold ulidEncode at h
  split_ifs at h with hlen
  split at h
  next first rest hvalues =>
    rcases ulid_values hvalues with ⟨hlt, htext⟩
    split_ifs at h with hfirst
    have hfirst8 : first.toNat < 2 ^ 3 :=
      Nat.lt_succ_of_le (UInt8.le_iff_toNat_le.1 (UInt8.not_lt.1 hfirst))
    have hfive : ∀ v ∈ rest.map UInt8.toNat, v < 2 ^ 5 := by
      intro v hv
      rcases mem_map.1 hv with ⟨c, hc, rfl⟩
      exact hlt c (mem_cons_of_mem _ hc)
    rcases hr : regroup 5 8 first.toNat 3 (rest.map UInt8.toNat) with ⟨out, acc, bits⟩
    rw [hr] at h
    simp only at h
    split_ifs at h with hshape
    cases h
    rw [not_or, not_not, not_not] at hshape
    rcases hshape with ⟨hout, rfl⟩
    have hback : regroup 8 5 0 2 out = (first.toNat :: rest.map UInt8.toNat, 0, 0) :=
      regroup_regroup (by decide) (by decide) rfl (by decide) hfirst8 hfive hr
    have hfwd : Regrouped 8 _ _ _ := regroup_spec (by decide) _ _ _ hfirst8 (by decide) hfive
    have hgroups := hfwd.groups
    rw [hr] at hgroups
    have htext' : ulidText (out.map UInt8.ofNat) = src := by
      rw [ulidText, map_toNat_ofNat hgroups, hback, ← map_cons, map_map, ← htext]
      refine map_congr_left fun c hc => ?_
      rw [Function.comp_apply, Nat.mod_eq_of_lt (hlt c hc)]
    rw [ulidDecode, if_neg (by simpa using hout), htext', if_neg hlen]
  next => cases h

/-! ## Repetitions -/

theorem length_reslice (dst : Bytes) (n : Nat) : (reslice dst n).length = n := by
  unfold reslice
  split
  · exact length_replicate
  · rw [length_take]
    omega

theorem repeatByteDecode_encode (h : repeatByteEncode src = some data) :
    data.length ≤ src.length ∧ repeatByteDecode data src.length = .ok src := by
  unfold repeatByteEncode at h
  split_ifs at h with hlen hall
  cases h
  cases src with
  | nil => simp at hlen
  | cons b rest =>
    have hrest : rest = replicate rest.length b := by
      refine eq_replicate_of_mem fun c hc => ?_
      simpa using all_eq_true.1 hall c hc
    refine ⟨by simp, ?_⟩
    rw [repeatByteDecode, length_cons, replicate_succ, headD_cons, ← hrest]

/-- `dst` holds the pattern, over and over, up to `copied`. -/
def Filled (pattern dst : Bytes) (copied : Nat) : Prop :=
  ∀ i, i < copied → dst[i]? = pattern[i % pattern.length]?

/-- Each round copies the filled part behind itself; its length is a multiple of the period
until the destination is full. -/
theorem doubleUp_spec {pattern : Bytes} : ∀ {fuel copied : Nat} {dst : Bytes}, 0 < copied →
    copied ≤ dst.length → dst.length ≤ fuel + copied → Filled pattern dst copied →
    (copied < dst.length → pattern.length ∣ copied) →
      (doubleUp fuel dst copied).length = dst.length ∧
        Filled pattern (doubleUp fuel dst copied) dst.length := by
  intro fuel
  induction fuel with
  | zero =>
    intro copied dst _ hle hfuel hfilled _
    have : copied = dst.length := by omega
    exact ⟨rfl, this ▸ hfilled⟩
  | succ fuel ih =>
    intro copied dst hpos hle hfuel hfilled hdvd
    rw [doubleUp]
    by_cases hlt : copied < dst.length
    · rw [if_pos hlt]
      set chunk := (dst.take copied).take (dst.length - copied) with hchunk
      have hclen : chunk.length = min (dst.length - copied) copied := by
        rw [hchunk, length_take, length_take]
        omega
      have hwlen : (writeAt dst copied chunk).length = dst.length := length_writeAt (by omega)
      have hfilled' : Filled pattern (writeAt dst copied chunk) (copied + chunk.length) := by
        intro i hi
        rw [getElem?_writeAt (by omega)]
        split
        next hlow => exact hfilled i hlow
        next hhigh =>
          -- a copied byte repeats the one a multiple of the period before
          rcases hdvd hlt with ⟨q, hq⟩
          have hmod : i % pattern.length = (i - copied) % pattern.length := by
            have : i = (i - copied) + pattern.length * q := by omega
            rw [this, Nat.add_mul_mod_self_left, ← hq, Nat.add_sub_cancel]
          rw [hmod, hchunk, getElem?_take, if_pos (by omega), getElem?_take, if_pos (by omega)]
          exact hfilled (i - copied) (by omega)
      have hdvd' : copied + chunk.length < (writeAt dst copied chunk).length →
          pattern.length ∣ copied + chunk.length := by
        intro hmore
        have hdouble : chunk.length = copied := by omega
        rw [hdouble]
        exact Dvd.dvd.add (hdvd hlt) (hdvd hlt)
      have hnext := ih (by omega) (by omega) (by omega) hfilled' hdvd'
      rwa [hwlen] at hnext
    · rw [if_neg hlt]
      have : copied = dst.length := by omega
      exact ⟨rfl, this ▸ hfilled⟩

theorem expandPeriodic_spec {pattern dst : Bytes} (hpos : 0 < pattern.length)
    (hle : pattern.length ≤ dst.length) :
    (expandPeriodic dst pattern).length = dst.length ∧
      Filled pattern (expandPeriodic dst pattern) dst.length := by
  have hfirst : pattern.take dst.length = pattern := take_of_length_le hle
  have hwlen : (writeAt dst 0 pattern).length = dst.length := length_writeAt (by omega)
  rw [expandPeriodic, if_neg (by omega)]
  simp only [hfirst]
  have hfilled : Filled pattern (writeAt dst 0 pattern) pattern.length := by
    intro i hi
    rw [getElem?_writeAt (Nat.zero_le _), if_neg (Nat.not_lt_zero i), if_pos (by omega),
      Nat.mod_eq_of_lt hi, Nat.sub_zero]
  have hrun := @doubleUp_spec pattern dst.length pattern.length (writeAt dst 0 pattern) hpos
    (by omega) (by omega) hfilled (fun _ => dvd_refl _)
  rwa [hwlen] at hrun

theorem filled_of_hasPeriod {period : Nat} (hpos : 0 < period) (hle : period ≤ src.length)
    (h : hasPeriod src period = true) : Filled (src.take period) src src.length := by
  intro i hi
  have hplen : (src.take period).length = period := by
    rw [length_take]
    omega
  rw [hplen]
  induction i using Nat.strongRecOn with
  | _ i ih =>
    by_cases hlow : i < period
    · rw [Nat.mod_eq_of_lt hlow, getElem?_take, if_pos hlow]
    · have hmem : i ∈ range' period (src.length - period) := by
        rw [mem_range'_1]
        omega
      have hstep := all_eq_true.1 h i hmem
      rw [beq_iff_eq, getD_eq_getElem _ _ hi, getD_eq_getElem _ _ (by omega)] at hstep
      rw [Nat.mod_eq_sub_mod (by omega), ← ih (i - period) (by omega) (by omega),
        getElem?_eq_getElem hi, getElem?_eq_getElem (by omega), hstep]

theorem periodicDecode_encode (h : periodicEncode src = some data) :
    data.length ≤ src.length ∧ periodicDecode data src.length = .ok src := by
  have hlen : ¬ src.length < 32 := by
    intro hshort
    simp [periodicEncode, hshort] at h
  rw [periodicEncode, if_neg hlen] at h
  rcases Option.map_eq_some_iff.1 h with ⟨period, hfind, rfl⟩
  have hmem := mem_of_find?_eq_some hfind
  have hpred := find?_some hfind
  rw [mem_range'_1] at hmem
  rw [Bool.and_eq_true] at hpred
  have hbounds : 2 ≤ period ∧ period ≤ 64 ∧ period ≤ src.length := by
    split at hmem <;> omega
  have hplen : (src.take period).length = period := by
    rw [length_take]
    omega
  refine ⟨by omega, ?_⟩
  rcases @expandPeriodic_spec (src.take period) (replicate src.length 0)
    (by omega) (by rw [length_replicate]; omega) with ⟨hlength, hfilled⟩
  rw [length_replicate] at hlength hfilled
  have hsrc := filled_of_hasPeriod (by omega) hbounds.2.2 hpred.2
  have heq : expandPeriodic (replicate src.length 0) (src.take period) = src := by
    refine ext_getElem? fun i => ?_
    by_cases hi : i < src.length
    · rw [hfilled i hi, hsrc i hi]
    · rw [getElem?_eq_none (by omega), getElem?_eq_none (by omega)]
  rw [periodicDecode, if_neg (by omega), heq]

end Codecs
end SnugKV
