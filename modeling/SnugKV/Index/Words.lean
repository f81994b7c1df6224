import SnugKV.Index.Table

/-!
# Words — slot fields, the tiny filter and the capacities of the index

The arithmetic the table rests on: the fields of a slot word do not overlap, a filter keeps
the bits it was given, a probe starts inside the slot array and every capacity the growth
rules choose holds the keys asked for.
-/

namespace SnugKV
namespace Index

open Lib

/-! ## Fields of a slot word -/

theorem liveBit_toNat : liveBit.toNat = 2 ^ 63 := rfl

theorem live_iff (w : UInt64) : w &&& liveBit = 0 ↔ w.toNat < 2 ^ 63 := by
  have hlt := w.toNat_lt
  rw [and_two_pow_eq_zero liveBit_toNat]
  omega

theorem slotFingerprint_toNat (w : UInt64) :
    (slotFingerprint w).toNat = w.toNat / 2 ^ 57 % 64 :=
  toNat_shiftRight_and (k := 6) (s := fingerprintShift) (by decide) rfl

theorem slotValue_toNat (w : UInt64) : (slotValue w).toNat = w.toNat / 2 ^ 30 % 2 ^ 27 := by
  have hfield : ((w >>> valueShift) &&& valueMask).toNat = w.toNat / 2 ^ 30 % 2 ^ 27 :=
    toNat_shiftRight_and (by decide) rfl
  rw [slotValue, UInt64.toNat_toUInt32, hfield]
  omega

theorem slotOffset_toNat (w : UInt64) : (slotOffset w).toNat = w.toNat % 2 ^ 30 := by
  have hfield : (w &&& offsetMask).toNat = w.toNat % 2 ^ 30 := toNat_and_mask rfl
  rw [slotOffset, UInt64.toNat_toUInt32, hfield]
  omega

/-- What the index may put into a word. -/
structure Fits (fingerprint : UInt64) (value offset : UInt32) : Prop where
  fingerprint_lt : fingerprint.toNat < 64
  value_le : value.toNat < 2 ^ 27
  offset_lt : offset.toNat < 2 ^ 30

section Word

variable {fp : UInt64} {v off : UInt32} (h : Fits fp v off)
include h

/-- The fields of a word do not overlap, so the word is their sum. -/
theorem slotWord_toNat :
    (slotWord fp v off).toNat = 2 ^ 63 + fp.toNat * 2 ^ 57 + v.toNat * 2 ^ 30 + off.toNat := by
  obtain ⟨hfp, hv, hoff⟩ := h
  have hlow : (v.toUInt64 <<< valueShift ||| off.toUInt64).toNat =
      v.toNat * 2 ^ 30 + off.toNat := by
    refine toNat_shiftLeft_or (by decide) ?_ ?_
    · rwa [UInt32.toNat_toUInt64]
    · show v.toUInt64.toNat * 2 ^ 30 < 2 ^ 64
      rw [UInt32.toNat_toUInt64]
      omega
  have hmid : (fp <<< fingerprintShift ||| (v.toUInt64 <<< valueShift ||| off.toUInt64)).toNat =
      fp.toNat * 2 ^ 57 + (v.toNat * 2 ^ 30 + off.toNat) := by
    rw [← hlow]
    refine toNat_shiftLeft_or (by decide) ?_ ?_
    · rw [hlow]
      show v.toNat * 2 ^ 30 + off.toNat < 2 ^ 57
      omega
    · show fp.toNat * 2 ^ 57 < 2 ^ 64
      omega
  have hword : slotWord fp v off =
      (1 : UInt64) <<< 63 ||| (fp <<< fingerprintShift |||
        (v.toUInt64 <<< valueShift ||| off.toUInt64)) := by
    simp only [slotWord, liveBit, UInt64.or_assoc]
  rw [hword, toNat_shiftLeft_or (by decide) (by rw [hmid]; show _ < 2 ^ 63; omega) (by decide),
    hmid]
  show 1 * 2 ^ 63 + _ = _
  omega

theorem slotWord_live : slotWord fp v off &&& liveBit ≠ 0 := by
  rw [Ne, live_iff, slotWord_toNat h]
  omega

theorem slotFingerprint_slotWord : slotFingerprint (slotWord fp v off) = fp := by
  have := h.fingerprint_lt
  have := h.value_le
  have := h.offset_lt
  rw [← UInt64.toNat_inj, slotFingerprint_toNat, slotWord_toNat h]
  omega

theorem slotValue_slotWord : slotValue (slotWord fp v off) = v := by
  have := h.value_le
  have := h.offset_lt
  rw [← UInt32.toNat_inj, slotValue_toNat, slotWord_toNat h]
  omega

theorem slotOffset_slotWord : slotOffset (slotWord fp v off) = off := by
  have := h.offset_lt
  rw [← UInt32.toNat_inj, slotOffset_toNat, slotWord_toNat h]
  omega

end Word

theorem hashFingerprint_lt (hash : UInt64) : (hashFingerprint hash).toNat < 64 := by
  have hfield : (hashFingerprint hash).toNat = hash.toNat / 2 ^ 58 % 2 ^ 6 :=
    toNat_shiftRight_and (by decide) rfl
  omega

theorem fits_of_le {value offset : UInt32} (hash : UInt64) (hv : value ≤ maxValue)
    (hoff : offset.toNat < 2 ^ 30) : Fits (hashFingerprint hash) value offset where
  fingerprint_lt := hashFingerprint_lt hash
  value_le := by
    have : value.toNat ≤ maxValue.toNat := hv
    rw [show maxValue.toNat = 2 ^ 27 - 1 from rfl] at this
    omega
  offset_lt := hoff

theorem fits_of_word (w : UInt64) (hash : UInt64) :
    Fits (hashFingerprint hash) (slotValue w) (slotOffset w) where
  fingerprint_lt := hashFingerprint_lt hash
  value_le := by
    rw [slotValue_toNat]
    omega
  offset_lt := by
    rw [slotOffset_toNat]
    omega

/-! ## The tiny filter -/

theorem or_and_self (f b : UInt32) : (f ||| b) &&& b = b := by
  rw [← UInt32.toNat_inj, UInt32.toNat_and, UInt32.toNat_or, Nat.and_or_distrib_right, Nat.and_self]
  refine Nat.eq_of_testBit_eq fun i => ?_
  simp only [Nat.testBit_or, Nat.testBit_and]
  cases f.toNat.testBit i <;> cases b.toNat.testBit i <;> rfl

theorem or_and_of_and {f b : UInt32} (h : f &&& b = b) (c : UInt32) : (f ||| c) &&& b = b := by
  have hnat := congrArg UInt32.toNat h
  rw [UInt32.toNat_and] at hnat
  rw [← UInt32.toNat_inj, UInt32.toNat_and, UInt32.toNat_or]
  refine Nat.eq_of_testBit_eq fun i => ?_
  have hi := congrArg (fun n => Nat.testBit n i) hnat
  simp only [Nat.testBit_and] at hi
  cases hf : f.toNat.testBit i <;> cases hb : b.toNat.testBit i <;> cases c.toNat.testBit i <;>
    simp_all

/-! ## Capacities -/

theorem probeStart_lt (hash : UInt64) {size : Nat} (h : 0 < size) :
    probeStart hash size < size := by
  unfold probeStart
  rw [Nat.shiftRight_eq_div_pow]
  have hle : hash.toNat % 2 ^ 32 * size % 2 ^ 64 ≤ hash.toNat % 2 ^ 32 * size := Nat.mod_le _ _
  have hlt : hash.toNat % 2 ^ 32 * size < 2 ^ 32 * size :=
    Nat.mul_lt_mul_of_pos_right (Nat.mod_lt _ (by decide)) h
  exact Nat.div_lt_of_lt_mul (lt_of_le_of_lt hle hlt)

theorem le_of_accepts {n capacity : Nat} (h : capacityAccepts n capacity = true) :
    n ≤ capacity := by
  unfold capacityAccepts at h
  split at h <;> simp at h <;> omega

theorem tightCapacity_spec (n : Nat) :
    n ≤ tightCapacity n ∧ 4 ≤ tightCapacity n ∧ capacityAccepts n (tightCapacity n) = true := by
  unfold tightCapacity
  split
  · rename_i h
    simp only [initialCapacity] at h ⊢
    simp [capacityAccepts, initialCapacity, h]
  · rename_i h
    set c := ((n * 5 + 3) / 4 + 7) / 8 * 8
    have hacc : capacityAccepts n c = true := by
      unfold capacityAccepts initialCapacity
      rw [if_neg (by omega), decide_eq_true_iff]
      omega
    have hwiden : widen n n c = c := by
      match n, h with
      | m + 1, _ => rw [widen, if_pos hacc]
    rw [hwiden]
    exact ⟨by omega, by omega, hacc⟩

theorem growCapacity_spec {n : Nat} :
    ∀ (k fuel capacity : Nat), 4 ≤ capacity → gradualGrowthMin ≤ capacity * 2 ^ k → k + 2 ≤ fuel →
      capacityAccepts n (growCapacity n fuel capacity) = true ∧
        4 ≤ growCapacity n fuel capacity := by
  intro k
  induction k with
  | zero =>
    intro fuel capacity h4 hmin hfuel
    obtain ⟨fuel, rfl⟩ : ∃ f, fuel = f + 2 := ⟨fuel - 2, by omega⟩
    have hge : ¬ capacity < gradualGrowthMin := by omega
    by_cases hacc : capacityAccepts n capacity = true
    · rw [growCapacity, if_pos hacc]
      exact ⟨hacc, h4⟩
    · obtain ⟨_, ht4, htacc⟩ := tightCapacity_spec (n + n / 2)
      -- a capacity for half as many keys again also holds the keys asked for
      have htight : capacityAccepts n (tightCapacity (n + n / 2)) = true := by
        unfold capacityAccepts at htacc ⊢
        split <;> simp_all <;> omega
      rw [growCapacity, if_neg hacc, if_neg hge, growCapacity, if_pos htight]
      exact ⟨htight, ht4⟩
  | succ k ih =>
    intro fuel capacity h4 hmin hfuel
    obtain ⟨fuel, rfl⟩ : ∃ f, fuel = f + 1 := ⟨fuel - 1, by omega⟩
    by_cases hacc : capacityAccepts n capacity = true
    · rw [growCapacity, if_pos hacc]
      exact ⟨hacc, h4⟩
    · by_cases hge : capacity < gradualGrowthMin
      · rw [growCapacity, if_neg hacc, if_pos hge]
        exact ih fuel (capacity * 2) (by omega)
          (by rw [mul_assoc, ← pow_succ']; exact hmin) (by omega)
      · have h0 := ih (fuel + 1) capacity h4 (le_trans (Nat.le_of_not_lt hge)
          (Nat.le_mul_of_pos_right _ (by positivity))) (by omega)
        exact h0

theorem capacityFor_spec {size n : Nat} (hsize : size = 0 ∨ 4 ≤ size) (hn : 0 < n) :
    n ≤ capacityFor size n ∧ 4 ≤ capacityFor size n := by
  have hstart : 4 ≤ if size = 0 then initialCapacity else size := by
    split
    · exact le_rfl
    · omega
  have h := growCapacity_spec (n := n) 6 8 _ hstart (by unfold gradualGrowthMin; omega) (by omega)
  rw [capacityFor, if_neg (by omega)]
  exact ⟨le_of_accepts h.1, h.2⟩

end Index
end SnugKV
