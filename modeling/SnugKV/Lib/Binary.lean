import Mathlib

/-!
# Binary — fixed-width words and base-128 varints over byte lists

Byte strings are lists of `UInt8`.  This module fixes the two integer layouts that
binary formats are built from:

* `putUint k n` / `getUint` — the `k`-byte little-endian layout;
* `putUvarint` / `uvarint` — the unsigned base-128 varint of a 64-bit word, with the
  ten-byte bound and the overflow rule of the reader.

Each writer comes with the law that its reader gives the value back in front of any tail.
-/

namespace SnugKV
namespace Lib

abbrev Bytes := List UInt8

instance lawfulBEqByte : LawfulBEq UInt8 := inferInstance

instance lawfulBEqBytes : LawfulBEq Bytes := inferInstance

def ascii (s : String) : Bytes :=
  s.toList.map Char.toUInt8

/-- A decidable property of bytes holds of every byte once it holds of the 256 values. -/
theorem forall_byte {P : UInt8 → Prop} (h : ∀ n : Fin 256, P (UInt8.ofNat n.val)) (b : UInt8) :
    P b := by
  have := h ⟨b.toNat, b.toNat_lt⟩
  rwa [UInt8.ofNat_toNat] at this

/-! ## Little-endian words -/

/-- The `k` low bytes of `n`, least significant first. -/
def putUint : Nat → Nat → Bytes
  | 0, _ => []
  | k + 1, n => UInt8.ofNat (n % 256) :: putUint k (n / 256)

def getUint : Bytes → Nat
  | [] => 0
  | b :: bs => b.toNat + 256 * getUint bs

@[simp] theorem length_putUint (k n : Nat) : (putUint k n).length = k := by
  induction k generalizing n with
  | zero => rfl
  | succ k ih => simp [putUint, ih]

theorem toNat_ofNat_mod (n : Nat) : (UInt8.ofNat (n % 256)).toNat = n % 256 := by
  rw [UInt8.toNat_ofNat']
  omega

theorem getUint_putUint (k n : Nat) : getUint (putUint k n) = n % 256 ^ k := by
  induction k generalizing n with
  | zero => simp [putUint, getUint, Nat.mod_one]
  | succ k ih =>
    rw [putUint, getUint, ih, toNat_ofNat_mod, pow_succ, mul_comm (256 ^ k) 256, Nat.mod_mul]

variable {k n : Nat}

theorem getUint_putUint_of_lt (h : n < 256 ^ k) : getUint (putUint k n) = n := by
  rw [getUint_putUint, Nat.mod_eq_of_lt h]

theorem getUint_lt (bs : Bytes) : getUint bs < 256 ^ bs.length := by
  induction bs with
  | nil => simp [getUint]
  | cons b bs ih =>
    have hb : b.toNat < 256 := b.toNat_lt
    simp only [getUint, List.length_cons, pow_succ]
    omega

theorem putUint_getUint (bs : Bytes) : putUint bs.length (getUint bs) = bs := by
  induction bs with
  | nil => rfl
  | cons b bs ih =>
    have hb : b.toNat < 256 := b.toNat_lt
    have hmod : (b.toNat + 256 * getUint bs) % 256 = b.toNat := by omega
    have hdiv : (b.toNat + 256 * getUint bs) / 256 = getUint bs := by omega
    simp only [List.length_cons, getUint, putUint, hmod, hdiv, ih, UInt8.ofNat_toNat]

/-! ## Packed fields of a word -/

variable {s w m : UInt64}

/-- A field shifted above another one: the word is the sum of the two. -/
theorem toNat_shiftLeft_or {a b : UInt64} (hs : s.toNat < 64) (hb : b.toNat < 2 ^ s.toNat)
    (ha : a.toNat * 2 ^ s.toNat < 2 ^ 64) :
    (a <<< s ||| b).toNat = a.toNat * 2 ^ s.toNat + b.toNat := by
  rw [UInt64.toNat_or, UInt64.toNat_shiftLeft, Nat.mod_eq_of_lt hs,
    Nat.mod_eq_of_lt (by rwa [Nat.shiftLeft_eq]), ← Nat.shiftLeft_add_eq_or_of_lt hb,
    Nat.shiftLeft_eq]

theorem toNat_shiftRight_and (hs : s.toNat < 64)
    (hm : m.toNat = 2 ^ k - 1) :
    ((w >>> s) &&& m).toNat = w.toNat / 2 ^ s.toNat % 2 ^ k := by
  rw [UInt64.toNat_and, UInt64.toNat_shiftRight, hm, Nat.and_two_pow_sub_one_eq_mod,
    Nat.mod_eq_of_lt hs, Nat.shiftRight_eq_div_pow]

theorem toNat_and_mask (hm : m.toNat = 2 ^ k - 1) : (w &&& m).toNat = w.toNat % 2 ^ k := by
  rw [UInt64.toNat_and, hm, Nat.and_two_pow_sub_one_eq_mod]

theorem and_two_pow_eq_zero (hm : m.toNat = 2 ^ k) : w &&& m = 0 ↔ w.toNat / 2 ^ k % 2 = 0 := by
  rw [← UInt64.toNat_inj, UInt64.toNat_and, hm, Nat.and_two_pow,
    Nat.testBit_eq_decide_div_mod_eq, show (0 : UInt64).toNat = 0 from rfl]
  rcases Nat.mod_two_eq_zero_or_one (w.toNat / 2 ^ k) with h | h <;> simp [h]

/-! ## Base-128 varints -/

/-- A 64-bit word has at most ten base-128 digits. -/
def maxVarintLen64 : Nat := 10

def putUvarintAux : Nat → Nat → Bytes
  | 0, _ => []
  | fuel + 1, n =>
    if n < 128 then [UInt8.ofNat n]
    else UInt8.ofNat (n % 128 + 128) :: putUvarintAux fuel (n / 128)

/-- Seven payload bits a byte, low digits first, the high bit set on all but the last. -/
def putUvarint (n : Nat) : Bytes :=
  putUvarintAux maxVarintLen64 n

def uvarintAux : Nat → Nat → Bytes → Option (Nat × Nat)
  | _, _, [] => none
  | i, x, b :: bs =>
    if i = maxVarintLen64 then none
    else if b.toNat < 128 then
      -- the tenth digit carries only bit 63
      if i = maxVarintLen64 - 1 ∧ 1 < b.toNat then none
      else some (x + b.toNat * 2 ^ (7 * i), i + 1)
    else uvarintAux (i + 1) (x + (b.toNat - 128) * 2 ^ (7 * i)) bs

/-- The value of the varint at the head of the buffer and its width; `none` when the
buffer ends inside it or the value does not fit 64 bits. -/
def uvarint (bs : Bytes) : Option (Nat × Nat) :=
  uvarintAux 0 0 bs

theorem length_putUvarint_pos (n : Nat) : 0 < (putUvarint n).length := by
  unfold putUvarint maxVarintLen64
  rw [putUvarintAux]
  split_ifs <;> simp

theorem length_putUvarintAux_le (fuel n : Nat) :
    (putUvarintAux fuel n).length ≤ fuel ∧ (putUvarintAux fuel n).length ≤ n + 1 := by
  induction fuel generalizing n with
  | zero => simp [putUvarintAux]
  | succ fuel ih =>
    rw [putUvarintAux]
    split_ifs
    · simp
    · have := ih (n / 128)
      rw [List.length_cons]
      omega

theorem length_putUvarint_le (n : Nat) : (putUvarint n).length ≤ maxVarintLen64 :=
  (length_putUvarintAux_le maxVarintLen64 n).1

theorem uvarintAux_putUvarintAux (rest : Bytes) :
    ∀ (fuel i x n : Nat), i + fuel = maxVarintLen64 → 0 < fuel → n * 2 ^ (7 * i) < 2 ^ 64 →
      uvarintAux i x (putUvarintAux fuel n ++ rest) =
        some (x + n * 2 ^ (7 * i), i + (putUvarintAux fuel n).length) := by
  intro fuel
  induction fuel with
  | zero =>
    intro i x n _ h _
    exact absurd h (lt_irrefl 0)
  | succ fuel ih =>
    intro i x n hi _ hn
    have hi10 : i ≠ maxVarintLen64 := by omega
    unfold maxVarintLen64 at hi
    -- only bit 63 is left for the tenth digit
    have hlast : i = 9 → n ≤ 1 := by
      rintro rfl
      omega
    by_cases hsmall : n < 128
    · have hb : (UInt8.ofNat n).toNat = n := by
        rw [UInt8.toNat_ofNat']
        omega
      have hfits : ¬ (i = maxVarintLen64 - 1 ∧ 1 < n) := fun h => (hlast h.1).not_gt h.2
      simp [putUvarintAux, hsmall, uvarintAux, hi10, hb, hfits]
    · have hb : (UInt8.ofNat (n % 128 + 128)).toNat = n % 128 + 128 := by
        rw [UInt8.toNat_ofNat']
        omega
      have hpow : n / 128 * 2 ^ (7 * (i + 1)) = n / 128 * 128 * 2 ^ (7 * i) := by
        ring
      have hval : n % 128 * 2 ^ (7 * i) + n / 128 * 2 ^ (7 * (i + 1)) = n * 2 ^ (7 * i) := by
        rw [hpow, ← add_mul, Nat.mod_add_div']
      have hstep := ih (i + 1) (x + (n % 128) * 2 ^ (7 * i)) (n / 128)
        (by unfold maxVarintLen64; omega) (by omega) (by omega)
      rw [add_assoc, hval] at hstep
      simp only [putUvarintAux, hsmall, if_false, List.cons_append, uvarintAux, hi10, hb,
        Nat.add_sub_cancel, List.length_cons]
      rw [if_neg (by omega), hstep]
      congr 2
      omega

theorem uvarint_putUvarint (h : n < 2 ^ 64) (rest : Bytes) :
    uvarint (putUvarint n ++ rest) = some (n, (putUvarint n).length) := by
  have := uvarintAux_putUvarintAux rest maxVarintLen64 0 0 n (by simp) (by decide)
    (by simpa using h)
  simpa [uvarint, putUvarint] using this

end Lib
end SnugKV
