import Mathlib.Data.List.Lex
import Mathlib.Order.Lattice
import Mathlib.Tactic.Common

/-!
# Common prefix — how far two strings agree, and what that says about their order

Strings of one length are compared at the first place where they differ.  Three of them, `a`, `b`
and `t`, with `a` before `b` and before `t`:

* `lt_of_lt_commonPrefix`   — if `b` agrees with `a` for longer than `t` does, `b` stands before `t`
  and agrees with `t` as far as `a` does;
* `commonPrefix_drop`, `lt_drop_iff` — if it agrees as long, the rest decides;
* `commonPrefix_between`    — a string between two others agrees with one of them as far as they do.
-/

namespace SnugKV
namespace Lib

open List

variable {α : Type*}

section Prefix

variable [DecidableEq α]

def commonPrefix : List α → List α → Nat
  | a :: as, b :: bs => if a = b then commonPrefix as bs + 1 else 0
  | _, _ => 0

@[simp] theorem commonPrefix_nil_left (b : List α) : commonPrefix [] b = 0 := by
  cases b <;> rfl

@[simp] theorem commonPrefix_nil_right (a : List α) : commonPrefix a [] = 0 := by
  cases a <;> rfl

@[simp] theorem commonPrefix_cons_self (x : α) (a b : List α) :
    commonPrefix (x :: a) (x :: b) = commonPrefix a b + 1 := by
  simp [commonPrefix]

theorem commonPrefix_cons_of_ne {x y : α} (h : x ≠ y) (a b : List α) :
    commonPrefix (x :: a) (y :: b) = 0 := by
  simp [commonPrefix, h]

theorem commonPrefix_le_left (a b : List α) : commonPrefix a b ≤ a.length := by
  fun_induction commonPrefix a b with
  | case1 x a b ih => simpa using ih
  | case2 => exact Nat.zero_le _
  | case3 => exact Nat.zero_le _

theorem take_commonPrefix (a b : List α) :
    a.take (commonPrefix a b) = b.take (commonPrefix a b) := by
  fun_induction commonPrefix a b with
  | case1 x a b ih => simpa using ih
  | case2 => rfl
  | case3 => rfl

theorem commonPrefix_self (a : List α) : commonPrefix a a = a.length := by
  induction a with
  | nil => rfl
  | cons x a ih => simpa using ih

theorem commonPrefix_comm (a b : List α) : commonPrefix a b = commonPrefix b a := by
  induction a generalizing b with
  | nil => simp
  | cons x a ih =>
    cases b with
    | nil => simp
    | cons y b => simp only [commonPrefix, ih b, eq_comm]

theorem commonPrefix_lt_of_ne {a b : List α} (hlen : a.length = b.length) (h : a ≠ b) :
    commonPrefix a b < a.length := by
  refine lt_of_le_of_ne (commonPrefix_le_left a b) fun heq => h ?_
  have htake := take_commonPrefix a b
  rwa [heq, take_length, take_of_length_le (le_of_eq hlen.symm)] at htake

theorem commonPrefix_append (p b t : List α) :
    commonPrefix (p ++ b) (p ++ t) = p.length + commonPrefix b t := by
  induction p with
  | nil => simp
  | cons x p ih => simp [ih, Nat.add_right_comm]

theorem commonPrefix_drop {b t : List α} {n : Nat} (h : b.take n = t.take n) (hb : n ≤ b.length) :
    commonPrefix b t = n + commonPrefix (b.drop n) (t.drop n) := by
  conv_lhs => rw [← take_append_drop n b, ← take_append_drop n t, ← h, commonPrefix_append]
  rw [length_take_of_le hb]

end Prefix

section Order

variable [LinearOrder α] {a b t : List α}

theorem append_lt_append_iff (p : List α) : p ++ b < p ++ t ↔ b < t := by
  induction p with
  | nil => rfl
  | cons x p ih => simpa [cons_lt_cons_iff] using ih

theorem lt_drop_iff {n : Nat} (h : b.take n = t.take n) : b.drop n < t.drop n ↔ b < t := by
  conv_rhs => rw [← take_append_drop n b, ← take_append_drop n t, ← h, append_lt_append_iff]

/-- The first place where two strings of one length differ decides. -/
theorem getD_lt_iff (hlen : a.length = b.length) (h : a ≠ b) (z : α) :
    a.getD (commonPrefix a b) z < b.getD (commonPrefix a b) z ↔ a < b := by
  fun_induction commonPrefix a b with
  | case1 x a b ih =>
    simpa [cons_lt_cons_iff] using ih (by simpa using hlen) fun heq => h (by rw [heq])
  | case2 x a y b hxy => simp [cons_lt_cons_iff, hxy]
  | case3 a b hnot =>
    rcases a with - | ⟨x, a⟩ <;> rcases b with - | ⟨y, b⟩
    · exact absurd rfl h
    · simp at hlen
    · simp at hlen
    · exact absurd rfl (hnot x a y b rfl)

/-- A string that agrees with `a` for longer than `t` does lies on the side of `a`. -/
theorem lt_of_lt_commonPrefix (hlt : a < t) (h : commonPrefix a t < commonPrefix a b) :
    b < t ∧ commonPrefix b t = commonPrefix a t := by
  induction a generalizing b t with
  | nil => simp at h
  | cons x a ih =>
    cases b with
    | nil => simp at h
    | cons y b =>
      cases t with
      | nil => simp at hlt
      | cons z t =>
        by_cases hxy : x = y
        · subst hxy
          by_cases hxz : x = z
          · subst hxz
            have htail : a < t := by simpa [cons_lt_cons_iff] using hlt
            obtain ⟨hbt, hcommon⟩ := ih htail (by simpa using h)
            exact ⟨by simpa [cons_lt_cons_iff] using hbt, by simpa using hcommon⟩
          · have hhead : x < z := by simpa [cons_lt_cons_iff, hxz] using hlt
            exact ⟨by simp [cons_lt_cons_iff, hhead], by simp [commonPrefix_cons_of_ne hxz]⟩
        · simp [commonPrefix_cons_of_ne hxy] at h

/-- Between two strings lies one that agrees with one of them just as far as they agree. -/
theorem commonPrefix_between (hat : a < t) (htb : t < b) :
    commonPrefix a b = commonPrefix a t ∨ commonPrefix a b = commonPrefix t b := by
  rcases lt_trichotomy (commonPrefix a b) (commonPrefix a t) with hlt | heq | hgt
  · exact .inr (lt_of_lt_commonPrefix (hat.trans htb) hlt).2.symm
  · exact .inl heq
  · exact absurd (lt_of_lt_commonPrefix hat hgt).1 (lt_asymm htb)

end Order

end Lib
end SnugKV
