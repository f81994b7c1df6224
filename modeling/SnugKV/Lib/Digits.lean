import SnugKV.Lib.Binary

/-!
# Digits — positional text and the regrouping of bits

* `valueFrom b a ds` — the number that the digits `ds`, most significant first, continue from
  `a`; two texts of one length with the same value are the same text;
* `textDigits` — the digits of a number without leading zeros, and the law that any such
  list of digits is the one of its value; `formatUint` and `formatInt` write them in decimal;
* `regroup k m` — the accumulator loop that reads groups of `k` bits and writes groups of `m`:
  what it writes has the value of what it read.
-/

namespace SnugKV
namespace Lib

open List

/-! ## Values of digit lists -/

/-- The value of `a` followed by the digits `ds`, most significant first. -/
def valueFrom (b : Nat) : Nat → List Nat → Nat
  | a, [] => a
  | a, d :: ds => valueFrom b (a * b + d) ds

theorem valueFrom_append (b a : Nat) (ds es : List Nat) :
    valueFrom b a (ds ++ es) = valueFrom b (valueFrom b a ds) es := by
  induction ds generalizing a with
  | nil => rfl
  | cons d ds ih => exact ih _

theorem valueFrom_eq (b a : Nat) (ds : List Nat) :
    valueFrom b a ds = a * b ^ ds.length + Nat.ofDigits b ds.reverse := by
  induction ds generalizing a with
  | nil => simp [valueFrom]
  | cons d ds ih =>
    rw [valueFrom, ih, reverse_cons, Nat.ofDigits_append, Nat.ofDigits_singleton,
      length_reverse, length_cons, pow_succ]
    ring

variable {b d m k : Nat}

theorem valueFrom_inj : ∀ {ds es : List Nat} {a c : Nat}, ds.length = es.length →
    (∀ d ∈ ds, d < b) → (∀ e ∈ es, e < b) → valueFrom b a ds = valueFrom b c es → a = c ∧ ds = es
  | [], [], _, _, _, _, _, h => ⟨h, rfl⟩
  | d :: ds, e :: es, a, c, hlen, hd, he, h => by
      rcases valueFrom_inj (by simpa using hlen) (fun x hx => hd x (mem_cons_of_mem _ hx))
        (fun x hx => he x (mem_cons_of_mem _ hx)) h with ⟨hhead, htail⟩
      have hdb := hd d mem_cons_self
      have heb := he e mem_cons_self
      -- the head digits are the remainders of equal numbers
      have hde : d = e := by
        have := congrArg (· % b) hhead
        simpa [Nat.mod_eq_of_lt hdb, Nat.mod_eq_of_lt heb] using this
      subst hde
      have hac : a * b = c * b := Nat.add_right_cancel hhead
      exact ⟨Nat.eq_of_mul_eq_mul_right (Nat.lt_of_le_of_lt (Nat.zero_le _) hdb) hac, by rw [htail]⟩

/-! ## Text without leading zeros -/

/-- The digits of `n` in base `b`, most significant first; zero has one digit. -/
def textDigits (b n : Nat) : List Nat :=
  if n = 0 then [0] else (Nat.digits b n).reverse

/-- A digit list without a leading zero is the text of its value. -/
theorem textDigits_valueFrom (hb : 1 < b) {ds : List Nat}
    (hlt : ∀ x ∈ d :: ds, x < b) (hlead : d ≠ 0 ∨ ds = []) :
    textDigits b (valueFrom b 0 (d :: ds)) = d :: ds := by
  by_cases h0 : d = 0
  · rcases hlead with hlead | hlead
    · exact absurd h0 hlead
    · simp [h0, hlead, valueFrom, textDigits]
  · have hdigits : Nat.digits b (valueFrom b 0 (d :: ds)) = (d :: ds).reverse := by
      rw [valueFrom_eq, zero_mul, zero_add]
      refine Nat.digits_ofDigits b hb _ (fun x hx => hlt x (mem_reverse.1 hx)) ?_
      simpa using h0
    have hne : valueFrom b 0 (d :: ds) ≠ 0 := by
      intro hzero
      rw [hzero, Nat.digits_zero] at hdigits
      simp at hdigits
    rw [textDigits, if_neg hne, hdigits, reverse_reverse]

theorem valueFrom_textDigits (n : Nat) : valueFrom b 0 (textDigits b n) = n := by
  unfold textDigits
  split
  next h => simp [valueFrom, h]
  next => rw [valueFrom_eq, reverse_reverse, Nat.ofDigits_digits, zero_mul, zero_add]

theorem textDigits_lt (hb : 1 < b) (n : Nat) : ∀ d ∈ textDigits b n, d < b := by
  intro d hd
  unfold textDigits at hd
  split at hd
  · rw [mem_singleton.1 hd]
    exact Nat.lt_of_succ_lt hb
  · exact Nat.digits_lt_base hb (mem_reverse.1 hd)

/-- Zero is the only text that starts with the digit zero. -/
theorem textDigits_lead {n : Nat} : ∃ d ds, textDigits b n = d :: ds ∧ (d = 0 → ds = []) := by
  unfold textDigits
  split
  · exact ⟨0, [], rfl, fun _ => rfl⟩
  next h =>
    have hne : Nat.digits b n ≠ [] := Nat.digits_ne_nil_iff_ne_zero.2 h
    have hrev : (Nat.digits b n).reverse ≠ [] := by simpa using hne
    refine ⟨_, _, (cons_head_tail hrev).symm, fun h0 => ?_⟩
    rw [head_reverse] at h0
    exact absurd h0 (Nat.getLast_digit_ne_zero b h)

/-! ## Decimal numbers -/

def minusSign : UInt8 := '-'.toUInt8
def plusSign : UInt8 := '+'.toUInt8
def digit0 : UInt8 := '0'.toUInt8
def digit9 : UInt8 := '9'.toUInt8

def isDigit (b : UInt8) : Bool :=
  decide (digit0 ≤ b ∧ b ≤ digit9)

def digitOf (b : UInt8) : Nat :=
  (b - digit0).toNat

def digitByte (d : Nat) : UInt8 :=
  UInt8.ofNat (48 + d)

def formatUint (n : Nat) : Bytes :=
  (textDigits 10 n).map digitByte

def formatInt : Int → Bytes
  | .ofNat n => formatUint n
  | .negSucc n => minusSign :: formatUint (n + 1)

theorem digitOf_spec : ∀ b : UInt8, isDigit b = true →
    digitOf b < 10 ∧ digitByte (digitOf b) = b ∧ (digitOf b = 0 → b = digit0) ∧ b ≠ minusSign :=
  forall_byte (by decide +kernel)

theorem digitByte_spec (h : d < 10) :
    isDigit (digitByte d) = true ∧ digitOf (digitByte d) = d ∧ (digitByte d = digit0 → d = 0) := by
  have hall : ∀ i : Fin 10, isDigit (digitByte i.val) = true ∧ digitOf (digitByte i.val) = i.val ∧
      (digitByte i.val = digit0 → i.val = 0) := by decide +kernel
  exact hall ⟨d, h⟩

theorem formatUint_digits (n : Nat) : ∀ b ∈ formatUint n, isDigit b = true := by
  intro b hb
  rcases mem_map.1 hb with ⟨d, hd, rfl⟩
  exact (digitByte_spec (textDigits_lt (by decide) n d hd)).1

theorem map_digitOf_formatUint (n : Nat) : (formatUint n).map digitOf = textDigits 10 n := by
  rw [formatUint, map_map]
  refine (map_congr_left fun d hd => ?_).trans (map_id _)
  exact (digitByte_spec (textDigits_lt (by decide) n d hd)).2.1

/-! ## Regrouping bits -/

/-- Writes groups of `m` bits while the accumulator holds that many. -/
def emit (m : Nat) : Nat → Nat → Nat → List Nat × Nat × Nat
  | 0, acc, bits => ([], acc, bits)
  | fuel + 1, acc, bits =>
    if bits < m then ([], acc, bits)
    else
      let rest := emit m fuel (acc % 2 ^ (bits - m)) (bits - m)
      (acc / 2 ^ (bits - m) :: rest.1, rest.2)

/-- Reads groups of `k` bits into the accumulator and writes groups of `m`. -/
def regroup (k m : Nat) : Nat → Nat → List Nat → List Nat × Nat × Nat
  | acc, bits, [] => ([], acc, bits)
  | acc, bits, v :: rest =>
    let e := emit m (bits + k) (acc * 2 ^ k + v) (bits + k)
    let r := regroup k m e.2.1 e.2.2 rest
    (e.1 ++ r.1, r.2)

/-- What a loop over the accumulator promises: full groups, fewer than `m` bits left, and no
change of value. -/
structure Regrouped (m start bits : Nat) (r : List Nat × Nat × Nat) : Prop where
  groups : ∀ d ∈ r.1, d < 2 ^ m
  acc_lt : r.2.1 < 2 ^ r.2.2
  bits_lt : r.2.2 < m
  length : r.1.length * m + r.2.2 = bits
  value : ∀ a, valueFrom (2 ^ m) a r.1 * 2 ^ r.2.2 + r.2.1 = a * 2 ^ bits + start

theorem emit_spec (hm : 0 < m) : ∀ (fuel acc bits : Nat), bits ≤ fuel → acc < 2 ^ bits →
    Regrouped m acc bits (emit m fuel acc bits) := by
  intro fuel
  induction fuel with
  | zero =>
    intro acc bits hfuel hacc
    have h0 : bits = 0 := Nat.le_zero.1 hfuel
    exact ⟨by simp [emit], hacc, by simpa [emit, h0] using hm, by simp [emit],
      fun a => by simp [emit, valueFrom]⟩
  | succ fuel ih =>
    intro acc bits hfuel hacc
    by_cases hbits : bits < m
    · rw [emit, if_pos hbits]
      exact ⟨by simp, hacc, hbits, by simp, fun a => by simp [valueFrom]⟩
    · have hle : m ≤ bits := Nat.le_of_not_lt hbits
      have hsplit : 2 ^ bits = 2 ^ m * 2 ^ (bits - m) := by
        rw [← pow_add, Nat.add_sub_cancel' hle]
      have hrest := ih (acc % 2 ^ (bits - m)) (bits - m) (by omega)
        (Nat.mod_lt _ (Nat.two_pow_pos _))
      rw [emit, if_neg hbits]
      refine ⟨?_, hrest.acc_lt, hrest.bits_lt, ?_, ?_⟩
      · refine forall_mem_cons.2 ⟨?_, hrest.groups⟩
        rw [Nat.div_lt_iff_lt_mul (Nat.two_pow_pos _), ← hsplit]
        exact hacc
      · have := hrest.length
        simp only [length_cons, add_mul, one_mul]
        omega
      · intro a
        have hvalue := hrest.value (a * 2 ^ m + acc / 2 ^ (bits - m))
        have hdiv := Nat.div_add_mod' acc (2 ^ (bits - m))
        simp only [valueFrom]
        rw [hvalue, hsplit]
        calc (a * 2 ^ m + acc / 2 ^ (bits - m)) * 2 ^ (bits - m) + acc % 2 ^ (bits - m)
            = a * (2 ^ m * 2 ^ (bits - m)) +
                (acc / 2 ^ (bits - m) * 2 ^ (bits - m) + acc % 2 ^ (bits - m)) := by ring
          _ = a * (2 ^ m * 2 ^ (bits - m)) + acc := by rw [hdiv]

/-- The loop over all groups, by induction on what is left to read. -/
theorem regroup_spec (hm : 0 < m) : ∀ (vs : List Nat) (acc bits : Nat),
    acc < 2 ^ bits → bits < m → (∀ v ∈ vs, v < 2 ^ k) →
      Regrouped m (valueFrom (2 ^ k) acc vs) (bits + k * vs.length) (regroup k m acc bits vs) := by
  intro vs
  induction vs with
  | nil =>
    intro acc bits hacc hbits _
    exact ⟨by simp [regroup], hacc, hbits, by simp [regroup], fun a => by simp [regroup, valueFrom]⟩
  | cons v vs ih =>
    intro acc bits hacc hbits hvs
    have hv := hvs v mem_cons_self
    have hread : acc * 2 ^ k + v < 2 ^ (bits + k) := by
      calc acc * 2 ^ k + v < acc * 2 ^ k + 2 ^ k := Nat.add_lt_add_left hv _
        _ = (acc + 1) * 2 ^ k := by ring
        _ ≤ 2 ^ bits * 2 ^ k := Nat.mul_le_mul_right _ hacc
        _ = 2 ^ (bits + k) := (pow_add 2 bits k).symm
    have he := emit_spec hm (bits + k) _ (bits + k) le_rfl hread
    rw [regroup]
    set e := emit m (bits + k) (acc * 2 ^ k + v) (bits + k)
    have hr := ih e.2.1 e.2.2 he.acc_lt he.bits_lt (fun x hx => hvs x (mem_cons_of_mem _ hx))
    refine ⟨?_, hr.acc_lt, hr.bits_lt, ?_, ?_⟩
    · exact forall_mem_append.2 ⟨he.groups, hr.groups⟩
    · have h1 := he.length
      have h2 := hr.length
      simp only [length_append, length_cons, add_mul, mul_add, mul_one]
      omega
    · intro a
      have h2 := hr.value (valueFrom (2 ^ m) a e.1)
      rw [valueFrom_append, h2, valueFrom, valueFrom_eq _ e.2.1, valueFrom_eq _ (acc * 2 ^ k + v),
        length_cons]
      have h1 := he.value a
      -- both sides continue the value read so far by the same digits
      have hpow : 2 ^ (e.2.2 + k * vs.length) = 2 ^ e.2.2 * (2 ^ k) ^ vs.length := by
        rw [pow_add, pow_mul]
      have hpow' : 2 ^ (bits + k * (vs.length + 1)) = 2 ^ (bits + k) * (2 ^ k) ^ vs.length := by
        ring
      rw [hpow, hpow']
      calc valueFrom (2 ^ m) a e.1 * (2 ^ e.2.2 * (2 ^ k) ^ vs.length) +
            (e.2.1 * (2 ^ k) ^ vs.length + Nat.ofDigits (2 ^ k) vs.reverse)
          = (valueFrom (2 ^ m) a e.1 * 2 ^ e.2.2 + e.2.1) * (2 ^ k) ^ vs.length +
              Nat.ofDigits (2 ^ k) vs.reverse := by ring
        _ = (a * 2 ^ (bits + k) + (acc * 2 ^ k + v)) * (2 ^ k) ^ vs.length +
              Nat.ofDigits (2 ^ k) vs.reverse := by rw [h1]
        _ = _ := by ring

/-- Regrouping back: when nothing is left over, and zero bits pad the first group to its full
width, the second loop writes what the first one read. -/
theorem regroup_regroup {pad bits acc acc' : Nat} {vs out : List Nat} (hm : 0 < m)
    (hbits : 0 < bits) (hpad : pad + bits = k) (hlt : bits < m) (hacc : acc < 2 ^ bits)
    (hvs : ∀ v ∈ vs, v < 2 ^ k) (h : regroup k m acc bits vs = (out, acc', 0)) :
    regroup m k 0 pad out = (acc :: vs, 0, 0) := by
  have hfwd := regroup_spec hm vs acc bits hacc hlt hvs
  rw [h] at hfwd
  have hacc' : acc' = 0 := Nat.lt_one_iff.1 hfwd.acc_lt
  have hlength := hfwd.length
  have hvalue := hfwd.value 0
  simp only [hacc', pow_zero, mul_one, add_zero, zero_mul, zero_add]
    at hlength hvalue
  have hk : 0 < k := by omega
  have hback := regroup_spec hk out 0 pad (Nat.two_pow_pos _) (by omega) hfwd.groups
  rcases hq : regroup m k 0 pad out with ⟨ds, a, b⟩
  rw [hq] at hback
  -- the second loop gets `k` bits for each digit of the text
  have htotal : k * ds.length + b = k * (vs.length + 1) := by
    have := hback.length
    rw [mul_comm k ds.length, this, mul_comm m, hlength, mul_add, mul_one]
    omega
  have hb : b = 0 := by
    have hmod := congrArg (· % k) htotal
    simpa [Nat.mul_add_mod, Nat.mod_eq_of_lt hback.bits_lt] using hmod
  subst hb
  have hds : ds.length = (acc :: vs).length := Nat.eq_of_mul_eq_mul_left hk (by simpa using htotal)
  have ha : a = 0 := Nat.lt_one_iff.1 hback.acc_lt
  subst ha
  have hvalue' := hback.value 0
  simp only [pow_zero, mul_one, add_zero, zero_mul, zero_add] at hvalue'
  have hfirst : acc < 2 ^ k := hacc.trans_le (Nat.pow_le_pow_right (by decide) (by omega))
  have hsame : ds = acc :: vs := by
    refine (valueFrom_inj (a := 0) (c := 0) hds hback.groups ?_ ?_).2
    · exact forall_mem_cons.2 ⟨hfirst, hvs⟩
    · calc valueFrom (2 ^ k) 0 ds = valueFrom (2 ^ m) 0 out := hvalue'
        _ = valueFrom (2 ^ k) acc vs := hvalue
        _ = valueFrom (2 ^ k) 0 (acc :: vs) := by rw [valueFrom, zero_mul, zero_add]
  rw [hsame]

end Lib
end SnugKV
