import SnugKV.Lib.Binary

/-!
# Rank — where an element stands in a sorted list

* the order of bytes, and with it the lexicographic order of byte strings;
* `rank l a` — how many elements of `l` are smaller than `a`; in a strictly sorted list this is
  the position of `a`;
* windows of a sorted list contain the elements whose rank lies in the window;
* a list that keeps the first `n` elements of another keeps the rank of what comes behind them.
-/

namespace SnugKV
namespace Lib

open List

instance linearOrderByte : LinearOrder UInt8 where
  le_refl a := UInt8.le_refl a
  le_trans _ _ _ := UInt8.le_trans
  lt_iff_le_not_ge a b := by
    simp only [UInt8.le_iff_toNat_le, UInt8.lt_iff_toNat_lt]
    omega
  le_antisymm _ _ := UInt8.le_antisymm
  le_total a b := UInt8.le_total a b
  toDecidableLE := inferInstance
  toDecidableLT := inferInstance
  toDecidableEq := inferInstance

section

variable {α : Type*} [LinearOrder α] {l : List α} {a : α}

def rank (l : List α) (a : α) : Nat :=
  l.countP (fun b => decide (b < a))

theorem rank_cons (b : α) (l : List α) (a : α) :
    rank (b :: l) a = rank l a + if b < a then 1 else 0 := by
  rw [rank, countP_cons, rank]
  simp only [decide_eq_true_eq]

theorem rank_perm {l' : List α} (h : l.Perm l') (a : α) : rank l a = rank l' a := h.countP_eq _

theorem rank_lt_length (h : a ∈ l) : rank l a < l.length := by
  rw [rank, countP_lt_length_iff]
  exact ⟨a, h, by simp⟩

theorem rank_of_getElem? (hl : l.Pairwise (· < ·)) :
    ∀ {i : Nat} {a : α}, l[i]? = some a → rank l a = i := by
  induction hl with
  | nil => intro i a h; cases h
  | @cons b l hb hl ih =>
    intro i a h
    cases i with
    | zero =>
      cases h
      have hnone : rank l b = 0 := by
        rw [rank, countP_eq_zero]
        intro x hx
        simpa using le_of_lt (hb x hx)
      rw [rank_cons, hnone, if_neg (lt_irrefl b)]
    | succ i =>
      rw [getElem?_cons_succ] at h
      rw [rank_cons, ih h, if_pos (hb a (mem_of_getElem? h))]

theorem mem_window (hl : l.Pairwise (· < ·)) (h : a ∈ l) {c w : Nat}
    (hc : c ≤ rank l a) (hw : rank l a < c + w) : a ∈ (l.drop c).take w := by
  refine mem_of_getElem? (i := rank l a - c) ?_
  rw [getElem?_take_of_lt (by omega), getElem?_drop, Nat.add_sub_cancel' hc]
  rcases getElem?_of_mem h with ⟨i, hi⟩
  rw [rank_of_getElem? hl hi, hi]

theorem rank_mono (l : List α) {a b : α} (h : a ≤ b) : rank l a ≤ rank l b :=
  countP_mono_left fun c _ hc => by simpa using lt_of_lt_of_le (of_decide_eq_true hc) h

theorem le_rank_of_kept {l' : List α} (hl : l.Pairwise (· < ·)) {n : Nat} (hn : n ≤ rank l a)
    (hkept : ∀ b ∈ l, rank l b < n → b ∈ l') : n ≤ rank l' a := by
  have hfirst : ∀ b ∈ l.take n, rank l b < n := by
    intro b hb
    rcases mem_take_iff_getElem.1 hb with ⟨i, hi, rfl⟩
    rw [rank_of_getElem? hl (getElem?_eq_getElem (by omega))]
    omega
  -- the first `n` elements are smaller than `a`, and all of them are in the other list
  have hsub : l.take n ⊆ l'.filter (fun b => decide (b < a)) := fun b hb => by
    refine mem_filter.2 ⟨hkept b (mem_of_mem_take hb) (hfirst b hb), decide_eq_true ?_⟩
    by_contra hle
    exact absurd (rank_mono l (not_lt.1 hle)) (by have := hfirst b hb; omega)
  have hnodup : (l.take n).Nodup := (hl.imp fun h => h.ne).sublist (take_sublist n l)
  have hlen : n ≤ l.length := hn.trans countP_le_length
  calc n = (l.take n).length := (length_take_of_le hlen).symm
    _ ≤ (l'.filter fun b => decide (b < a)).length := (hnodup.subperm hsub).length_le
    _ = rank l' a := countP_eq_length_filter.symm

end

end Lib
end SnugKV
