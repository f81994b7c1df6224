import Mathlib.Data.List.Basic
import Mathlib.Tactic

/-!
# Search — binary search for the first index that satisfies a test

The loop of Go's `sort.Search`.  The test has to be monotone: false on an initial part and true on
the rest; then the result is the length of that initial part.
-/

namespace SnugKV
namespace Lib

open List

universe u

/-- `for i < j { h := (i+j)/2; if !f(h) { i = h+1 } else { j = h } }`. -/
def searchLoop (f : Nat → Bool) : Nat → Nat → Nat → Nat
  | 0, i, _ => i
  | fuel + 1, i, j =>
    if i < j then
      let h := (i + j) / 2
      if !f h then searchLoop f fuel (h + 1) j else searchLoop f fuel i h
    else i

def search (n : Nat) (f : Nat → Bool) : Nat :=
  searchLoop f n 0 n

theorem searchLoop_eq {f : Nat → Bool} {k fuel i j : Nat} (hik : i ≤ k) (hkj : k ≤ j)
    (hfuel : j ≤ i + fuel) (hlow : ∀ x < k, f x = false)
    (hhigh : ∀ x < j, k ≤ x → f x = true) : searchLoop f fuel i j = k := by
  induction fuel generalizing i j with
  | zero =>
    simp only [searchLoop]
    omega
  | succ fuel ih =>
    simp only [searchLoop]
    by_cases hij : i < j
    · rw [if_pos hij]
      by_cases hh : (i + j) / 2 < k
      · -- below the boundary the test fails and the lower half goes
        rw [hlow _ hh]
        exact ih (by omega) hkj (by omega) hhigh
      · rw [hhigh _ (by omega) (by omega)]
        exact ih hik (by omega) (by omega) (fun x hx => hhigh x (by omega))
    · rw [if_neg hij]
      omega

/-- The first index of `l` that satisfies `p`. -/
def searchList {α : Type u} (l : List α) (p : α → Bool) : Nat :=
  search l.length fun i => (l[i]?).any p

theorem searchList_append {α : Type u} {xs ys : List α} {p : α → Bool}
    (hx : ∀ x ∈ xs, p x = false) (hy : ∀ y ∈ ys, p y = true) :
    searchList (xs ++ ys) p = xs.length := by
  refine searchLoop_eq (Nat.zero_le _) (by simp) (by simp) ?_ ?_
  · intro i hi
    rw [getElem?_append_left hi, getElem?_eq_getElem hi]
    exact hx _ (getElem_mem hi)
  · intro i hi hge
    have hlt : i - xs.length < ys.length := by
      rw [length_append] at hi
      omega
    rw [getElem?_append_right hge, getElem?_eq_getElem hlt]
    exact hy _ (getElem_mem hlt)

theorem exists_split {α : Type u} {l : List α} {p : α → Bool}
    (hmono : l.Pairwise fun a b => p a = true → p b = true) :
    ∃ xs ys, l = xs ++ ys ∧ (∀ x ∈ xs, p x = false) ∧ ∀ y ∈ ys, p y = true := by
  induction l with
  | nil => exact ⟨[], [], rfl, by simp, by simp⟩
  | cons a l ih =>
    rw [pairwise_cons] at hmono
    cases ha : p a with
    | true =>
      exact ⟨[], a :: l, rfl, by simp, forall_mem_cons.2 ⟨ha, fun y hy => hmono.1 y hy ha⟩⟩
    | false =>
      rcases ih hmono.2 with ⟨xs, ys, rfl, hx, hy⟩
      exact ⟨a :: xs, ys, rfl, forall_mem_cons.2 ⟨ha, hx⟩, hy⟩

end Lib
end SnugKV
