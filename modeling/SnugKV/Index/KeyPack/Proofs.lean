import SnugKV.Index.KeyPack

/-!
# KeyPack proofs — what the log readers see at a record

* `equals_iff` — `equals` accepts exactly the decoded key;
* `parse_encode` — splitting an escaped record gives back its parts, whatever follows it;
* `keyAt_of_recordAt`, `keyEquals_of_recordAt`, `recordLen_of_recordAt` — each reader, started
  at a record, sees the key that was written;
* `length_record` — `KeyRecordSize` is the space a record takes.
-/

namespace SnugKV
namespace Index

open Lib List PackedParts Hex PackedKey

/-! ## Comparing is decoding -/

theorem pairWord_toNat (c : UInt8 × UInt8) : (pairWord c).toNat = c.2.toNat * 256 + c.1.toNat := by
  have h1 : c.1.toNat < 2 ^ 8 := c.1.toNat_lt
  have h2 : c.2.toNat < 2 ^ 8 := c.2.toNat_lt
  have hshift : c.2.toNat <<< 8 % 2 ^ 16 = c.2.toNat <<< 8 :=
    Nat.mod_eq_of_lt (by rw [Nat.shiftLeft_eq]; omega)
  simp only [pairWord, UInt16.toNat_or, UInt8.toNat_toUInt16, UInt16.toNat_shiftLeft]
  rw [show (8 : UInt16).toNat % 16 = 8 from rfl, hshift, Nat.or_comm,
    ← Nat.shiftLeft_add_eq_or_of_lt h1, Nat.shiftLeft_eq]

theorem pairWord_inj {c d : UInt8 × UInt8} : pairWord c = pairWord d ↔ c = d := by
  constructor
  · intro h
    have hnat := congrArg UInt16.toNat h
    rw [pairWord_toNat, pairWord_toNat] at hnat
    have h1 := c.1.toNat_lt
    have h2 := d.1.toNat_lt
    exact Prod.ext (UInt8.toNat_inj.1 (by omega)) (UInt8.toNat_inj.1 (by omega))
  · rintro rfl
    rfl

/-- Lowering flagged letters in the word and in the characters is the same: a character of
the table is at least `0x30`, so nothing is borrowed from the high byte. -/
theorem hexWordLower_sub : ∀ (b : UInt8) (l h : Fin 2),
    hexWordLower b - ((UInt8.ofNat l.val).toUInt16 * (0x20 : UInt16) +
        (UInt8.ofNat h.val).toUInt16 <<< (13 : UInt16)) =
      pairWord ((hexPairLower b).1 - UInt8.ofNat l.val <<< 5,
        (hexPairLower b).2 - UInt8.ofNat h.val <<< 5) :=
  forall_byte (by decide +kernel)

section

variable (p : PackedParts)

include p

theorem caseBits_bits (j : Nat) :
    ∃ l h : Fin 2, p.caseBits j &&& 1 = UInt8.ofNat l.val ∧
      p.caseBits j >>> 1 = UInt8.ofNat h.val := by
  have hbits : ∀ x : UInt8, ∃ l h : Fin 2,
      (x &&& 3) &&& 1 = UInt8.ofNat l.val ∧ (x &&& 3) >>> 1 = UInt8.ofNat h.val :=
    forall_byte (by decide +kernel)
  exact hbits _

theorem wantWord_eq (j : Nat) (b : UInt8) : p.wantWord j b = pairWord (p.digitPair j b) := by
  unfold wantWord digitPair
  by_cases hmix : p.flags &&& packCaseMask = packCaseMix
  · have hup : ¬ packCaseMix = packCaseUp := by decide
    obtain ⟨l, h, hl, hh⟩ := caseBits_bits p j
    simp only [hmix, hup, if_true, if_false, hl, hh]
    exact hexWordLower_sub b l h
  · split <;> rfl

theorem equalsFrom_iff :
    ∀ (bs : Bytes) (j : Nat) (rest : Bytes), rest.length = 2 * bs.length →
      (p.equalsFrom j bs rest = true ↔ p.digitsFrom j bs = rest) := by
  intro bs
  induction bs with
  | nil =>
    intro j rest hlen
    have : rest = [] := by simpa using hlen
    simp [equalsFrom, digitsFrom, this]
  | cons b bs ih =>
    intro j rest hlen
    match rest, hlen with
    | c :: d :: rest, hlen =>
      have htail := ih (j + 1) rest (by simpa [mul_add] using hlen)
      simp only [equalsFrom, digitsFrom, wantWord_eq, ne_eq,
        pairWord_inj, cons.injEq]
      by_cases hcd : (c, d) = p.digitPair j b
      · rw [← hcd]
        simp [htail]
      · simp only [hcd, not_false_eq_true, if_true, Bool.false_eq_true, false_iff]
        rintro ⟨rfl, rfl, -⟩
        exact hcd rfl
    | [c], hlen => simp at hlen; omega
    | [], hlen => simp at hlen

theorem length_digitsFrom (bs : Bytes) (j : Nat) : (p.digitsFrom j bs).length = 2 * bs.length := by
  induction bs generalizing j with
  | nil => rfl
  | cons b bs ih =>
    simp only [digitsFrom, length_cons, ih]
    omega

end

/-- The literal between the lead and the digits. -/
def PackedParts.zeroX (p : PackedParts) : Bytes :=
  if p.flags &&& pack0x ≠ 0 then [0x30, 0x78] else []

theorem equals_iff (p : PackedParts) (key : Key) : p.equals key = true ↔ p.key = key := by
  by_cases hempty : p.flags = packEmpty
  · simp [PackedParts.equals, PackedParts.key, hempty, eq_comm]
  · have hkey : p.key = p.lead ++ (p.zeroX ++ p.digitsFrom 0 p.payload) := by
      rw [PackedParts.key, if_neg hempty, append_assoc]
      rfl
    have hequals : p.equals key = true ↔
        p.lead.length + 2 * p.payload.length + p.zeroX.length = key.length ∧
          p.lead = key.take p.lead.length ∧
          (key.drop p.lead.length).take p.zeroX.length = p.zeroX ∧
          p.equalsFrom 0 p.payload ((key.drop p.lead.length).drop p.zeroX.length) = true := by
      rw [PackedParts.equals, if_neg hempty, PackedParts.zeroX, drop_drop]
      by_cases h0x : p.flags &&& pack0x = 0 <;> simp [h0x]
    rw [hequals, hkey]
    constructor
    · rintro ⟨hlen, hlead, hzx, hrest⟩
      have hdigits := (equalsFrom_iff p p.payload 0 _
        (by rw [length_drop, length_drop]; omega)).1 hrest
      calc p.lead ++ (p.zeroX ++ p.digitsFrom 0 p.payload)
          = key.take p.lead.length ++ ((key.drop p.lead.length).take p.zeroX.length ++
              (key.drop p.lead.length).drop p.zeroX.length) := by rw [← hlead, hzx, hdigits]
        _ = key := by rw [take_append_drop, take_append_drop]
    · rintro rfl
      have hrest := (equalsFrom_iff p p.payload 0 _ (length_digitsFrom ..)).2 rfl
      simp [length_digitsFrom, hrest]
      omega

/-! ## The case mask -/

/-- Bit `i` of a mask, as the writer numbers the bits. -/
def maskBit (mask : Bytes) (i : Nat) : Bool :=
  (mask.getD (i / 8) 0).toNat.testBit (i % 8)

theorem or_one_shiftLeft_testBit (x : UInt8) (n r : Nat) :
    (x ||| 1 <<< UInt8.ofNat (n &&& 7)).toNat.testBit r =
      (x.toNat.testBit r || decide (n % 8 = r)) := by
  have hpow : ∀ q : Fin 8, (1 <<< UInt8.ofNat q.val : UInt8).toNat = 2 ^ q.val := by decide
  have hmod : n &&& 7 = n % 8 := Nat.and_two_pow_sub_one_eq_mod n 3
  have hbit := hpow ⟨n % 8, Nat.mod_lt n (by decide)⟩
  rw [hmod, UInt8.toNat_or, Nat.testBit_or, hbit, Nat.testBit_two_pow]

/-- The mask after the first `n` digits. -/
def caseMaskUpTo (digits : Bytes) (n : Nat) : Bytes :=
  (List.range n).foldl
    (fun mask i =>
      if hexClass (digits.getD i 0) = 4 then
        mask.modify (i >>> 3) (· ||| 1 <<< UInt8.ofNat (i &&& 7))
      else mask)
    (List.replicate ((digits.length + 7) / 8) 0)

theorem caseMaskUpTo_succ (digits : Bytes) (n : Nat) :
    caseMaskUpTo digits (n + 1) = if hexClass (digits.getD n 0) = 4 then
        (caseMaskUpTo digits n).modify (n >>> 3) (· ||| 1 <<< UInt8.ofNat (n &&& 7))
      else caseMaskUpTo digits n := by
  simp [caseMaskUpTo, range_succ]

theorem length_caseMaskUpTo (digits : Bytes) (n : Nat) :
    (caseMaskUpTo digits n).length = (digits.length + 7) / 8 := by
  induction n with
  | zero => simp [caseMaskUpTo]
  | succ n ih =>
    rw [caseMaskUpTo_succ]
    split <;> simp [ih]

variable {n : Nat}

theorem maskBit_caseMaskUpTo (digits : Bytes) (hn : n ≤ digits.length) (i : Nat)
    (hi : i < digits.length) :
    maskBit (caseMaskUpTo digits n) i = decide (i < n ∧ hexClass (digits.getD i 0) = 4) := by
  induction n with
  | zero =>
    have hlt : i / 8 < (digits.length + 7) / 8 := by omega
    simp [maskBit, caseMaskUpTo, getD_eq_getElem?_getD, hlt]
  | succ n ih =>
    have hprev := ih (by omega)
    have hlt : i / 8 < (caseMaskUpTo digits n).length := by
      rw [length_caseMaskUpTo]
      omega
    rw [caseMaskUpTo_succ]
    by_cases hup : hexClass (digits.getD n 0) = 4
    · have hshift : n >>> 3 = n / 8 := Nat.shiftRight_eq_div_pow n 3
      have hnew : maskBit ((caseMaskUpTo digits n).modify (n >>> 3)
          (· ||| 1 <<< UInt8.ofNat (n &&& 7))) i =
          (maskBit (caseMaskUpTo digits n) i || decide (n = i)) := by
        rw [hshift]
        by_cases hq : n / 8 = i / 8
        · have hni : (n % 8 = i % 8) ↔ n = i := by omega
          have hget : ((caseMaskUpTo digits n).modify (n / 8)
              (· ||| 1 <<< UInt8.ofNat (n &&& 7))).getD (i / 8) 0 =
              (caseMaskUpTo digits n).getD (i / 8) 0 ||| 1 <<< UInt8.ofNat (n &&& 7) := by
            simp [getD_eq_getElem?_getD, hq, hlt]
          simp only [maskBit, hget, or_one_shiftLeft_testBit, hni]
        · have hni : n ≠ i := fun h => hq (by rw [h])
          simp [maskBit, getD_eq_getElem?_getD, hq, hni]
      rw [if_pos hup, hnew, hprev]
      by_cases hni : n = i
      · subst hni
        simpa using hup
      · have : (i < n + 1) ↔ i < n := by omega
        simp [hni, this]
    · rw [if_neg hup, hprev]
      by_cases hni : i = n
      · subst hni
        simp only [hup, and_false]
      · have : (i < n + 1) ↔ i < n := by omega
        simp [this]

theorem length_caseMask (digits : Bytes) :
    (caseMask digits).length = (digits.length + 7) / 8 :=
  length_caseMaskUpTo digits digits.length

theorem maskBit_caseMask (digits : Bytes) {i : Nat} (hi : i < digits.length) :
    maskBit (caseMask digits) i = decide (hexClass (digits.getD i 0) = 4) := by
  have := maskBit_caseMaskUpTo digits le_rfl i hi
  simp only [hi, true_and] at this
  exact this

theorem caseBits_eq (p : PackedParts) (j : Nat) :
    p.caseBits j &&& 1 = (if maskBit p.mask (2 * j) then 1 else 0) ∧
      p.caseBits j >>> 1 = (if maskBit p.mask (2 * j + 1) then 1 else 0) := by
  have hbyte : ∀ (m : UInt8) (q : Fin 4),
      (m >>> (UInt8.ofNat q.val * 2) &&& 3) &&& 1 =
          (if m.toNat.testBit (2 * q.val) then 1 else 0) ∧
        (m >>> (UInt8.ofNat q.val * 2) &&& 3) >>> 1 =
          (if m.toNat.testBit (2 * q.val + 1) then 1 else 0) :=
    forall_byte (by decide +kernel)
  have hand : j &&& 3 = j % 4 := Nat.and_two_pow_sub_one_eq_mod j 2
  have hshift : j >>> 2 = j / 4 := Nat.shiftRight_eq_div_pow j 2
  have hq := hbyte (p.mask.getD (j / 4) 0) ⟨j % 4, Nat.mod_lt j (by decide)⟩
  have e1 : 2 * j / 8 = j / 4 := by omega
  have e2 : 2 * j % 8 = 2 * (j % 4) := by omega
  have e3 : (2 * j + 1) / 8 = j / 4 := by omega
  have e4 : (2 * j + 1) % 8 = 2 * (j % 4) + 1 := by omega
  simpa only [caseBits, maskBit, hand, hshift, e1, e2, e3, e4] using hq

/-! ## Decoding the digits -/

theorem digitsFrom_packPairs (p : PackedParts) :
    ∀ (ds : Bytes) (j : Nat), ds.length % 2 = 0 →
      (∀ i hi lo, ds[2 * i]? = some hi → ds[2 * i + 1]? = some lo →
        p.digitPair (j + i) (packPair hi lo) = (hi, lo)) →
      p.digitsFrom j (packPairs ds) = ds
  | [], _, _, _ => rfl
  | [_], _, heven, _ => by simp at heven
  | hi :: lo :: rest, j, heven, hpair => by
      have hhead := hpair 0 hi lo rfl rfl
      have htail := digitsFrom_packPairs p rest (j + 1) (by simp only [length_cons] at heven; omega)
        (fun i hi' lo' h1 h2 => by
          have := hpair (i + 1) hi' lo' (by simpa [mul_add] using h1)
            (by simpa [mul_add] using h2)
          rwa [show j + 1 + i = j + (i + 1) by omega])
      simp only [add_zero] at hhead
      simp only [packPairs, digitsFrom, hhead, htail]

variable {c : UInt8} {key : Key} {ds : Bytes}

theorem hexClass_ne_zero : hexClass c ≠ 0 ↔ classOf c ≠ .none := by
  unfold hexClass
  cases classOf c <;> decide

theorem hexClass_eq_four : hexClass c = 4 ↔ classOf c = .upper := by
  unfold hexClass
  cases classOf c <;> decide

/-- How the case flags describe a run of digits. -/
def CaseAgrees (p : PackedParts) (digits : Bytes) : Prop :=
  if p.flags &&& packCaseMask = packCaseMix then
    ∀ i < digits.length, maskBit p.mask i = decide (hexClass (digits.getD i 0) = 4)
  else if p.flags &&& packCaseMask = packCaseUp then ∀ c ∈ digits, Hex.classOf c ≠ .lower
  else ∀ c ∈ digits, Hex.classOf c ≠ .upper

theorem raise_lowerDigit (hc : classOf c ≠ .none) :
    lowerDigit (nibble c) -
      (if decide (hexClass c = 4) = true then (1 : UInt8) else 0) <<< (5 : UInt8) = c := by
  by_cases hup : classOf c = .upper
  · rw [if_pos (decide_eq_true (hexClass_eq_four.2 hup))]
    exact lowerDigit_nibble_sub c hup
  · have h4 : hexClass c ≠ 4 := fun h => hup (hexClass_eq_four.1 h)
    simpa [h4] using lowerDigit_nibble c hc hup

theorem digitPair_packPair {p : PackedParts} {digits : Bytes}
    (hhex : ∀ c ∈ digits, classOf c ≠ .none)
    (hcase : CaseAgrees p digits) {j : Nat} {hi lo : UInt8} (h0 : digits[2 * j]? = some hi)
    (h1 : digits[2 * j + 1]? = some lo) :
    p.digitPair j (packPair hi lo) = (hi, lo) := by
  have hmem0 := mem_of_getElem? h0
  have hmem1 := mem_of_getElem? h1
  have hnib := packPair_nibbles (hhex hi hmem0) (hhex lo hmem1)
  have hup : ¬ packCaseMix = packCaseUp := by decide
  unfold digitPair CaseAgrees at *
  by_cases hmix : p.flags &&& packCaseMask = packCaseMix
  · have hlt0 := (List.getElem?_eq_some_iff.1 h0).1
    have hlt1 := (List.getElem?_eq_some_iff.1 h1).1
    rw [if_pos hmix] at hcase
    have hb := caseBits_eq p j
    rw [hcase _ hlt0, hcase _ hlt1, getD_eq_getElem?_getD, getD_eq_getElem?_getD,
      h0, h1, Option.getD_some, Option.getD_some] at hb
    simp only [hmix, hup, if_true, if_false, hb.1, hb.2, hexPairLower, hnib.1, hnib.2]
    rw [raise_lowerDigit (hhex hi hmem0), raise_lowerDigit (hhex lo hmem1)]
  · simp only [hmix, if_false] at hcase ⊢
    by_cases hflag : p.flags &&& packCaseMask = packCaseUp
    · simp only [hflag, if_true, hexPairUpper, hnib.1, hnib.2] at hcase ⊢
      rw [upperDigit_nibble hi (hhex hi hmem0) (hcase hi hmem0),
        upperDigit_nibble lo (hhex lo hmem1) (hcase lo hmem1)]
    · simp only [hflag, if_false, hexPairLower, hnib.1, hnib.2] at hcase ⊢
      rw [lowerDigit_nibble hi (hhex hi hmem0) (hcase hi hmem0),
        lowerDigit_nibble lo (hhex lo hmem1) (hcase lo hmem1)]

/-! ## What `packKey` accepts -/

theorem foldl_or_and_eq_zero {m a : UInt8}
    (h : ds.foldl (fun seen c => seen ||| hexClass c) a &&& m = 0) :
    a &&& m = 0 ∧ ∀ c ∈ ds, hexClass c &&& m = 0 := by
  induction ds generalizing a with
  | nil => exact ⟨h, by simp⟩
  | cons d ds ih =>
    obtain ⟨had, hds⟩ := ih h
    have hsplit : (a &&& m) ||| (hexClass d &&& m) = 0 := by
      rw [← had]
      exact UInt8.toNat_inj.1 (by simp [Nat.and_or_distrib_right])
    obtain ⟨ha, hd⟩ := UInt8.or_eq_zero_iff.1 hsplit
    exact ⟨ha, forall_mem_cons.2 ⟨hd, hds⟩⟩

theorem no_lower_of_seen (h : seenClasses ds &&& 2 = 0) : ∀ c ∈ ds, classOf c ≠ .lower := by
  intro c hc hl
  have := (foldl_or_and_eq_zero h).2 c hc
  rw [hexClass, hl] at this
  exact absurd this (by decide)

theorem no_upper_of_seen (h : seenClasses ds &&& 4 = 0) : ∀ c ∈ ds, classOf c ≠ .upper := by
  intro c hc hu
  have := (foldl_or_and_eq_zero h).2 c hc
  rw [hexClass, hu] at this
  exact absurd this (by decide)

theorem hex_of_mem_run {s : Nat} (hs : key.length - hexRun key ≤ s) :
    ∀ c ∈ key.drop s, classOf c ≠ .none := by
  intro c hc
  set q : UInt8 → Bool := fun c => hexClass c != 0
  have hrun : (key.reverse.takeWhile q) = key.reverse.take (hexRun key) :=
    prefix_iff_eq_take.1 ( takeWhile_prefix q)
  have hmem : c ∈ key.reverse.takeWhile q := by
    have hsuff : c ∈ key.drop (key.length - hexRun key) := (drop_suffix_drop_left key hs).subset hc
    rw [hrun, take_reverse]
    simpa using hsuff
  have := mem_takeWhile_imp hmem
  exact hexClass_ne_zero.1 (by simpa [q] using this)

/-- What an accepted analysis says about its key. -/
structure PackedKey.Splits (p : PackedKey) (key : Key) (has0x : Bool) : Prop where
  key_eq : key = p.lead ++ (if has0x then [0x30, 0x78] else []) ++ p.digits
  flags_eq : p.flags = packFlags has0x p.lead.length (seenClasses p.digits)
  hex : ∀ c ∈ p.digits, Hex.classOf c ≠ .none
  even : p.digits.length % 2 = 0
  lead_le : p.lead.length ≤ packMaxPrefix
  digits_le : p.digits.length ≤ packMaxDigits
  size_eq : p.size = escapedSize p.flags p.lead.length p.digits.length

theorem hexRun_le (key : Key) : hexRun key ≤ key.length := by
  have := ( takeWhile_prefix (fun c => hexClass c != 0) (l := key.reverse)).length_le
  simpa [hexRun] using this

/-- The bytes before the digits are the prefix and, when it is there, the literal `0x`. -/
theorem take_eq_prefix (key : Key) (s : Nat) :
    key.take s = key.take (prefixEnd key s) ++ (if follows0x key s then [0x30, 0x78] else []) := by
  unfold prefixEnd
  by_cases h0 : follows0x key s = true
  · have h0' := of_decide_eq_true h0
    rw [if_pos h0, if_pos h0, ← h0'.2]
    nth_rewrite 1 [← take_append_drop (s - 2) (key.take s)]
    rw [take_take, min_eq_left (by omega)]
  · rw [if_neg h0, if_neg h0, append_nil]

variable {p : PackedKey}

theorem packKey_splits (h : packKey key = some p) : ∃ has0x, p.Splits key has0x := by
  unfold packKey at h
  split_ifs at h with hmin hrun hdigits hprefix hsize
  cases h
  have hle := hexRun_le key
  have hsle : digitStart key ≤ key.length := by
    unfold digitStart
    split <;> omega
  have hnle : prefixEnd key (digitStart key) ≤ key.length := by
    unfold prefixEnd
    split <;> omega
  have hlen : (packAt key (digitStart key)).lead.length = prefixEnd key (digitStart key) := by
    simp [packAt, hnle]
  refine ⟨follows0x key (digitStart key), ?_, ?_, ?_, ?_, ?_, ?_, ?_⟩
  · rw [packAt, ← take_eq_prefix, take_append_drop]
  · rw [hlen]
    rfl
  · refine hex_of_mem_run ?_
    unfold digitStart
    split <;> omega
  · simp only [packAt, length_drop]
    unfold digitStart
    split <;> omega
  · rw [hlen]
    exact Nat.le_of_not_lt hprefix
  · exact Nat.le_of_not_lt hdigits
  · rw [hlen]
    rfl

variable {has0x : Bool}

/-- What the flag byte says, bit by bit. -/
theorem PackedKey.Splits.flags_spec (h : p.Splits key has0x) :
    (p.flags &&& pack0x ≠ 0 ↔ has0x = true) ∧ (p.flags &&& packPrefix ≠ 0 ↔ 0 < p.lead.length) ∧
      (p.flags &&& packCaseMask = packCaseMix ↔
        seenClasses p.digits &&& 2 ≠ 0 ∧ seenClasses p.digits &&& 4 ≠ 0) ∧
      (p.flags &&& packCaseMask = packCaseUp ↔
        seenClasses p.digits &&& 4 ≠ 0 ∧ seenClasses p.digits &&& 2 = 0) ∧
      p.flags ≠ packEmpty := by
  rw [h.flags_eq, packFlags]
  by_cases hn : 0 < p.lead.length <;> by_cases h2 : seenClasses p.digits &&& 2 = 0 <;>
    by_cases h4 : seenClasses p.digits &&& 4 = 0 <;> cases has0x <;>
    simp [hn, h2, h4, pack0x, packPrefix, packCaseMask, packCaseMix, packCaseUp, packEmpty] <;>
    decide

theorem PackedKey.Splits.caseAgrees
    (h : p.Splits key has0x) {parts : PackedParts} (hflags : parts.flags = p.flags)
    (hmask : p.flags &&& packCaseMask = packCaseMix → parts.mask = caseMask p.digits) :
    CaseAgrees parts p.digits := by
  have hf := h.flags_spec
  unfold CaseAgrees
  rw [hflags]
  split
  · rename_i hmix
    intro i hi
    rw [hmask hmix, maskBit_caseMask _ hi]
  · rename_i hmix
    split
    · rename_i hup
      exact no_lower_of_seen (hf.2.2.2.1.1 hup).2
    · rename_i hup
      refine no_upper_of_seen ?_
      by_contra h4
      by_cases h2 : seenClasses p.digits &&& 2 = 0
      · exact hup (hf.2.2.2.1.2 ⟨h4, h2⟩)
      · exact hmix (hf.2.2.1.2 ⟨h2, h4⟩)

/-! ## Readers at a record -/

theorem readUvarint_putUvarint (h : n < 2 ^ 64) (rest : Bytes) :
    readUvarint (putUvarint n ++ rest) = (n, (putUvarint n).length) := by
  rw [readUvarint, uvarint_putUvarint h, Option.getD_some]

def PackedKey.leadBlock (p : PackedKey) : Bytes :=
  if p.flags &&& packPrefix ≠ 0 then UInt8.ofNat p.lead.length :: p.lead else []

def PackedKey.maskBlock (p : PackedKey) : Bytes :=
  if p.flags &&& packCaseMask = packCaseMix then caseMask p.digits else []

theorem PackedKey.encode_append (p : PackedKey) (rest : Bytes) :
    p.encode ++ rest = packEscape :: p.flags :: (p.leadBlock ++ (putUvarint (p.digits.length / 2) ++
      (p.maskBlock ++ (packPairs p.digits ++ rest)))) := by
  simp [encode, leadBlock, maskBlock]

theorem PackedKey.length_encode (p : PackedKey) :
    p.encode.length = 2 + p.leadBlock.length + (putUvarint (p.digits.length / 2)).length +
      p.maskBlock.length + p.digits.length / 2 := by
  have := congrArg length (p.encode_append [])
  simp only [append_nil, length_cons, length_append, length_packPairs] at this
  omega

theorem parse_encode (h : p.Splits key has0x)
    (rest : Bytes) :
    parse (p.encode ++ rest) =
      { flags := p.flags, lead := p.lead, mask := p.maskBlock,
        payload := packPairs p.digits, total := p.encode.length } := by
  have hf := h.flags_spec
  have hdig := h.digits_le
  have hlead := h.lead_le
  have heven := h.even
  unfold packMaxDigits at hdig
  unfold packMaxPrefix at hlead
  have hpay : (packPairs p.digits).length = p.digits.length / 2 := length_packPairs p.digits
  have hvar := fun tail => readUvarint_putUvarint (n := p.digits.length / 2) (by omega) tail
  -- the lead is read back and the cursor stands behind its block
  have hread : (if p.flags &&& packPrefix ≠ 0 then
        ((p.encode ++ rest).drop 3).take ((p.encode ++ rest).getD 2 0).toNat else []) = p.lead ∧
      (if p.flags &&& packPrefix ≠ 0 then 2 + (1 + ((p.encode ++ rest).getD 2 0).toNat) else 2) =
        2 + p.leadBlock.length := by
    rw [p.encode_append, leadBlock]
    by_cases hp : p.flags &&& packPrefix = 0
    · have hnil : p.lead = [] := by
        have := mt hf.2.1.2 (by simpa using hp)
        exact length_eq_zero_iff.1 (by omega)
      simp [hp, hnil]
    · have hn : (UInt8.ofNat p.lead.length).toNat = p.lead.length := by
        rw [UInt8.toNat_ofNat']
        omega
      simp [hp, hn]
      omega
  have hmask : (if p.flags &&& packCaseMask = packCaseMix then
      2 + p.leadBlock.length + (putUvarint (p.digits.length / 2)).length +
        (p.digits.length / 2 * 2 + 7) / 8
      else 2 + p.leadBlock.length + (putUvarint (p.digits.length / 2)).length) =
      2 + p.leadBlock.length + (putUvarint (p.digits.length / 2)).length + p.maskBlock.length := by
    rw [maskBlock]
    split
    · rw [length_caseMask]
      omega
    · simp
  have hcursor : ∀ n, (p.encode ++ rest).drop (2 + p.leadBlock.length + n) =
      (putUvarint (p.digits.length / 2) ++
        (p.maskBlock ++ (packPairs p.digits ++ rest))).drop n := by
    intro n
    rw [p.encode_append, add_comm 2, add_right_comm]
    simp [drop_append]
  have hflag : (p.encode ++ rest).getD 1 0 = p.flags := by
    rw [p.encode_append]
    rfl
  have hc0 := hcursor 0
  simp only [add_zero, drop_zero] at hc0
  unfold parse
  simp only [hflag, hf.2.2.2.2, if_false, hread.1, hread.2, hc0, hvar, hmask]
  have hc1 := hcursor (putUvarint (p.digits.length / 2)).length
  rw [drop_left] at hc1
  have hc2 : (p.encode ++ rest).drop (2 + p.leadBlock.length +
      (putUvarint (p.digits.length / 2)).length + p.maskBlock.length) =
      packPairs p.digits ++ rest := by
    rw [← drop_drop, hc1, drop_left]
  rw [hc1, hc2, p.length_encode]
  congr 1
  · rw [maskBlock]
    split
    · rw [take_left' (by rw [length_caseMask]; omega)]
    · rfl
  · rw [take_left' hpay]

theorem key_parse_encode (h : p.Splits key has0x)
    (rest : Bytes) : (PackedParts.parse (p.encode ++ rest)).key = key := by
  have hf := h.flags_spec
  rw [parse_encode h]
  set parts : PackedParts := ⟨p.flags, p.lead, p.maskBlock, Hex.packPairs p.digits, p.encode.length⟩
  have hcase : CaseAgrees parts p.digits :=
    h.caseAgrees rfl (fun hmix => by simp [parts, PackedKey.maskBlock, hmix])
  have hdigits : parts.digitsFrom 0 (Hex.packPairs p.digits) = p.digits :=
    digitsFrom_packPairs parts p.digits 0 h.even (fun i hi lo h0 h1 => by
      rw [zero_add]
      exact digitPair_packPair h.hex hcase h0 h1)
  have hzx : (if p.flags &&& pack0x ≠ 0 then [0x30, 0x78] else ([] : Bytes)) =
      if has0x then [0x30, 0x78] else [] := by
    simp only [hf.1]
  rw [PackedParts.key, if_neg hf.2.2.2.2]
  simp only [parts, hzx, hdigits]
  exact h.key_eq.symm

theorem head_putUvarint (hn : 0 < n) (rest : Bytes) :
    (putUvarint n ++ rest).getD 0 0 ≠ packEscape ∧
      ((putUvarint n ++ rest).getD 0 0 < 0x80 → n < 0x80 ∧
        (putUvarint n ++ rest).getD 0 0 = UInt8.ofNat n) := by
  have hunfold : putUvarint n = if n < 128 then [UInt8.ofNat n]
      else UInt8.ofNat (n % 128 + 128) :: putUvarintAux 9 (n / 128) := rfl
  by_cases hsmall : n < 128
  · rw [hunfold, if_pos hsmall]
    refine ⟨?_, fun _ => ⟨hsmall, rfl⟩⟩
    intro h
    have := congrArg UInt8.toNat (show UInt8.ofNat n = packEscape from h)
    simp [packEscape] at this
    omega
  · rw [hunfold, if_neg hsmall]
    have hbyte : (UInt8.ofNat (n % 128 + 128)).toNat = n % 128 + 128 := by
      rw [UInt8.toNat_ofNat']
      omega
    constructor
    · intro h
      have := congrArg UInt8.toNat (show UInt8.ofNat (n % 128 + 128) = packEscape from h)
      rw [hbyte] at this
      simp [packEscape] at this
    · intro h
      have : (UInt8.ofNat (n % 128 + 128)).toNat < 0x80 := h
      omega

theorem rawRecord_putUvarint (hn : 0 < n) (h64 : n < 2 ^ 64) (rest : Bytes) :
    rawRecord (putUvarint n ++ rest) = ((putUvarint n).length, n) := by
  obtain ⟨_, hsmall⟩ := head_putUvarint hn rest
  unfold rawRecord
  simp only [readUvarint_putUvarint h64]
  split
  · rename_i hlt
    obtain ⟨hn128, hhead⟩ := hsmall hlt
    have hlen : (putUvarint n).length = 1 := by
      simp [putUvarint, maxVarintLen64, putUvarintAux, hn128]
    rw [hhead, hlen, UInt8.toNat_ofNat']
    congr 1
    omega
  · rfl

/-- A record of `key` starts at `offset`. -/
def RecordAt (log : Bytes) (offset : Nat) (key : Key) : Prop :=
  key.length < 2 ^ 64 ∧ ∃ rest, log.drop offset = record key ++ rest

section Readers

variable {log : Bytes} {offset : Nat} {key : Key}

theorem record_cases (key : Key) :
    (∃ (p : PackedKey) (has0x : Bool), p.Splits key has0x ∧ record key = p.encode) ∨
      (key = [] ∧ record key = [packEscape, packEmpty]) ∨
      (0 < key.length ∧ record key = putUvarint key.length ++ key) := by
  unfold record
  cases hpk : packKey key with
  | some p =>
    obtain ⟨has0x, h⟩ := packKey_splits hpk
    exact Or.inl ⟨p, has0x, h, rfl⟩
  | none =>
    by_cases hlen : key.length = 0
    · exact Or.inr (Or.inl ⟨length_eq_zero_iff.1 hlen, by simp [hlen]⟩)
    · exact Or.inr (Or.inr ⟨Nat.pos_of_ne_zero hlen, by simp [hlen]⟩)

theorem getD_zero_encode (p : PackedKey) (rest : Bytes) :
    (p.encode ++ rest).getD 0 0 = packEscape := by
  rfl

section

variable (h : RecordAt log offset key)

include h

theorem keyAt_of_recordAt : keyAt log offset = key := by
  obtain ⟨h64, rest, hdrop⟩ := h
  unfold keyAt
  simp only [hdrop]
  rcases record_cases key with ⟨p, has0x, hs, hrec⟩ | ⟨rfl, hrec⟩ | ⟨hpos, hrec⟩ <;> rw [hrec]
  · exact key_parse_encode hs rest
  · rfl
  · rw [append_assoc, if_neg (head_putUvarint hpos _).1, rawRecord_putUvarint hpos h64]
    simp

theorem keyEquals_of_recordAt (k : Key) : keyEquals log offset k = decide (key = k) := by
  obtain ⟨h64, rest, hdrop⟩ := h
  unfold keyEquals
  simp only [hdrop]
  rcases record_cases key with ⟨p, has0x, hs, hrec⟩ | ⟨rfl, hrec⟩ | ⟨hpos, hrec⟩ <;> rw [hrec]
  · rw [if_pos (getD_zero_encode p rest), Bool.eq_iff_iff, equals_iff, key_parse_encode hs,
      decide_eq_true_iff]
  · rw [if_pos (show ([packEscape, packEmpty] ++ rest).getD 0 0 = packEscape from rfl),
      Bool.eq_iff_iff, equals_iff, decide_eq_true_iff]
    rfl
  · rw [append_assoc, if_neg (head_putUvarint hpos _).1, rawRecord_putUvarint hpos h64]
    by_cases hlen : key.length = k.length
    · simp only [hlen, ne_eq, not_true_eq_false, if_false, drop_left]
      rw [take_left' hlen, Bool.eq_iff_iff, beq_iff_eq, decide_eq_true_iff]
    · have : key ≠ k := fun h => hlen (by rw [h])
      simp [hlen, this]

theorem recordLen_of_recordAt : recordLen log offset = (record key).length := by
  obtain ⟨h64, rest, hdrop⟩ := h
  unfold recordLen
  simp only [hdrop]
  rcases record_cases key with ⟨p, has0x, hs, hrec⟩ | ⟨rfl, hrec⟩ | ⟨hpos, hrec⟩ <;> rw [hrec]
  · rw [if_pos (getD_zero_encode p rest), parse_encode hs]
  · rfl
  · rw [append_assoc, if_neg (head_putUvarint hpos _).1, rawRecord_putUvarint hpos h64,
      length_append]

end

end Readers

theorem length_putUvarint (n : Nat) : (putUvarint n).length = uvarintLen n := by
  have haux : ∀ fuel n, (putUvarintAux (fuel + 1) n).length = uvarintLenAux fuel n := by
    intro fuel
    induction fuel with
    | zero =>
      intro n
      unfold putUvarintAux uvarintLenAux
      split <;> simp [putUvarintAux]
    | succ fuel ih =>
      intro n
      have hshift : n >>> 7 = n / 128 := Nat.shiftRight_eq_div_pow n 7
      rw [putUvarintAux, uvarintLenAux, hshift]
      by_cases hn : n < 128
      · simp [hn]
      · simp [hn, Nat.le_of_not_lt hn, ih]
  exact haux 9 n

theorem length_record (key : Key) : (record key).length = keyRecordSize key := by
  unfold record keyRecordSize
  cases hpk : packKey key with
  | none =>
    by_cases hlen : key.length = 0
    · simp [hlen]
    · simp [hlen, recordBytes, length_putUvarint]
  | some p =>
    have hlen : key.length ≠ 0 := by
      intro h0
      rw [packKey, if_pos (by rw [h0]; decide)] at hpk
      exact absurd hpk (by simp)
    obtain ⟨has0x, h⟩ := packKey_splits hpk
    have hf := h.flags_spec
    simp only [hlen, if_false]
    rw [p.length_encode, h.size_eq, escapedSize, length_putUvarint, leadBlock,
      maskBlock]
    have hlead : (if p.flags &&& packPrefix ≠ 0 then UInt8.ofNat p.lead.length :: p.lead
        else []).length = if 0 < p.lead.length then 1 + p.lead.length else 0 := by
      simp only [hf.2.1]
      split
      · simp [add_comm]
      · rfl
    have hmask : (if p.flags &&& packCaseMask = packCaseMix then caseMask p.digits
        else []).length =
        if p.flags &&& packCaseMask = packCaseMix then (p.digits.length + 7) / 8 else 0 := by
      split
      · exact length_caseMask _
      · rfl
    omega

theorem two_le_length_record (key : Key) : 2 ≤ (record key).length := by
  rcases record_cases key with ⟨p, _, _, hrec⟩ | ⟨_, hrec⟩ | ⟨hpos, hrec⟩ <;> rw [hrec]
  · rw [p.length_encode]
    omega
  · decide
  · have : 1 ≤ (putUvarint key.length).length := by
      rw [length_putUvarint, uvarintLen, uvarintLenAux]
      split <;> omega
    rw [length_append]
    omega

/-- A record is never much shorter than its key. -/
theorem length_le_of_record (key : Key) : key.length ≤ (record key).length + 385 := by
  rcases record_cases key with ⟨p, has0x, h, _⟩ | ⟨rfl, _⟩ | ⟨_, hrec⟩
  · have hlen := congrArg length h.key_eq
    have hdig := h.digits_le
    have hlead := h.lead_le
    unfold packMaxDigits at hdig
    unfold packMaxPrefix at hlead
    simp only [length_append] at hlen
    have hzx : (if has0x = true then [0x30, 0x78] else ([] : Bytes)).length ≤ 2 := by
      split <;> simp
    omega
  · simp
  · rw [hrec, length_append]
    omega

end Index
end SnugKV
