import Mathlib.Data.List.Basic
import Mathlib.Tactic

/-!
# Slice — a growable array with its capacity

The elements of a slice and the capacity of the array under it.  Capacities are kept because the
programs that use slices size other arrays, and charge memory, by them.

* `Slice.set?` — assignment, `none` when the index is out of range;
* `Slice.push` — appending one element;
* `Slice.resize` — a new array of a given length and capacity with the old elements copied in.
-/

namespace SnugKV
namespace Lib

open List

universe u

structure Slice (α : Type u) where
  items : List α
  cap : Nat
  fits : items.length ≤ cap

namespace Slice

variable {α : Type u}

def len (s : Slice α) : Nat := s.items.length

def empty : Slice α := ⟨[], 0, Nat.le_refl 0⟩

def ofList (l : List α) : Slice α := ⟨l, l.length, Nat.le_refl _⟩

def get? (s : Slice α) (i : Nat) : Option α := s.items[i]?

def set? (s : Slice α) (i : Nat) (a : α) : Option (Slice α) :=
  if i < s.len then some ⟨s.items.set i a, s.cap, by simpa using s.fits⟩ else none

/-- A full slice moves to an array with room for the new element. -/
def push (s : Slice α) (a : α) : Slice α :=
  ⟨s.items ++ [a], max s.cap (s.len + 1), by simp [len]⟩

/-- A new array of length `n` whose first elements are those of `s`. -/
def resize (s : Slice α) (n cap : Nat) (zero : α) : Slice α :=
  ⟨s.items.take n ++ List.replicate (n - s.len) zero, max cap n, by simp [len]; omega⟩

variable {s t : Slice α} {i : Nat} {a : α}

@[simp] theorem len_empty : (empty : Slice α).len = 0 := rfl

@[simp] theorem len_ofList (l : List α) : (ofList l).len = l.length := rfl

theorem get?_eq_none : s.get? i = none ↔ s.len ≤ i := by
  simp [get?, len]

theorem get?_isSome (h : i < s.len) : ∃ a, s.get? i = some a :=
  Option.ne_none_iff_exists'.1 (fun hn => Nat.not_le_of_lt h (get?_eq_none.1 hn))

/-! ## Assignment -/

theorem set?_of_lt (h : i < s.len) (a : α) : ∃ t, s.set? i a = some t := by
  simp [set?, h]

section

variable (h : s.set? i a = some t)

include h

theorem lt_len_of_set? : i < s.len := by
  by_contra hlt
  simp [set?, hlt] at h

theorem len_set? : t.len = s.len := by
  simp only [set?, lt_len_of_set? h, if_true, Option.some.injEq] at h
  subst h
  simp [len]

theorem get?_set? (j : Nat) : t.get? j = if j = i then some a else s.get? j := by
  have hlt := lt_len_of_set? h
  simp only [set?, hlt, if_true, Option.some.injEq] at h
  subst h
  by_cases hj : j = i
  · subst hj
    simpa [get?] using getElem?_set_self hlt
  · simp [get?, hj, getElem?_set_ne (Ne.symm hj)]

end

/-! ## Growing -/

@[simp] theorem len_push (s : Slice α) (a : α) : (s.push a).len = s.len + 1 := by
  simp [push, len]

theorem get?_push (s : Slice α) (a : α) (j : Nat) :
    (s.push a).get? j = if j = s.len then some a else s.get? j := by
  have hlen : s.items.length = s.len := rfl
  rcases Nat.lt_trichotomy j s.len with h | h | h
  · rw [if_neg (ne_of_lt h)]
    exact getElem?_append_left (hlen ▸ h)
  · rw [if_pos h, h]
    simp [get?, push, ← hlen]
  · rw [if_neg (ne_of_gt h), get?_eq_none.2 (by simp only [len_push]; omega),
      get?_eq_none.2 (le_of_lt h)]

@[simp] theorem len_resize (s : Slice α) (n cap : Nat) (zero : α) :
    (s.resize n cap zero).len = n := by
  simp [resize, len]
  omega

theorem get?_resize {n : Nat} (h : s.len ≤ n) (cap : Nat) (zero : α) (j : Nat) :
    (s.resize n cap zero).get? j =
      if j < s.len then s.get? j else if j < n then some zero else none := by
  have hlen : s.items.length = s.len := rfl
  have htake : s.items.take n = s.items := take_of_length_le h
  have hitems : (s.resize n cap zero).get? j =
      (s.items ++ replicate (n - s.len) zero)[j]? := by
    simp only [get?, resize, htake]
  rw [hitems]
  by_cases h1 : j < s.len
  · rw [if_pos h1]
    exact getElem?_append_left (hlen ▸ h1)
  · rw [if_neg h1, getElem?_append_right (by omega), getElem?_replicate]
    by_cases h2 : j < n
    · rw [if_pos h2, if_pos (by omega)]
    · rw [if_neg h2, if_neg (by omega)]

theorem get?_fresh (n cap : Nat) (zero : α) (j : Nat) :
    ((empty : Slice α).resize n cap zero).get? j = if j < n then some zero else none := by
  rw [get?_resize (by simp)]
  simp

end Slice

end Lib
end SnugKV
