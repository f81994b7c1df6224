import Mathlib

/-!
# Buffer — reads and writes at an offset

A buffer is a list; `readAt` copies a range out of it and `writeAt` overwrites one.  The laws
are those of a store: a read of the range just written gives it back, and a read of a range
disjoint from it is unchanged.
-/

namespace SnugKV
namespace Lib

open List

variable {α : Type*}

/-- `d[p : p+k]` -/
def readAt (d : List α) (p k : Nat) : List α :=
  (d.drop p).take k

/-- `copy(d[p:], bs)`, for a `bs` that fits. -/
def writeAt (d : List α) (p : Nat) (bs : List α) : List α :=
  d.take p ++ bs ++ d.drop (p + bs.length)

theorem getElem?_readAt (d : List α) (p k i : Nat) :
    (readAt d p k)[i]? = if i < k then d[p + i]? else none := by
  rw [readAt, getElem?_take]
  split <;> simp

theorem length_readAt (d : List α) (p k : Nat) : (readAt d p k).length = min k (d.length - p) := by
  simp [readAt]

variable {d bs : List α} {p : Nat} {k : Nat} {as : List α}

theorem length_writeAt (h : p + bs.length ≤ d.length) : (writeAt d p bs).length = d.length := by
  simp [writeAt]
  omega

theorem getElem?_writeAt (h : p ≤ d.length) (i : Nat) : (writeAt d p bs)[i]? =
      if i < p then d[i]? else if i < p + bs.length then bs[i - p]? else d[i]? := by
  have hp : (d.take p).length = p := by simp [h]
  by_cases h1 : i < p
  · rw [if_pos h1, writeAt, append_assoc, getElem?_append_left (by omega), getElem?_take_of_lt h1]
  · rw [if_neg h1, writeAt, append_assoc, getElem?_append_right (by omega), hp]
    by_cases h2 : i < p + bs.length
    · rw [if_pos h2, getElem?_append_left (by omega)]
    · rw [if_neg h2, getElem?_append_right (by omega), getElem?_drop]
      congr 1
      omega

theorem readAt_writeAt_self (h : p + bs.length ≤ d.length) :
    readAt (writeAt d p bs) p bs.length = bs := by
  refine ext_getElem? fun i => ?_
  rw [getElem?_readAt]
  split
  · rw [getElem?_writeAt (by omega), if_neg (by omega), if_pos (by omega)]
    congr 1
    omega
  · rw [getElem?_eq_none (by omega)]

theorem readAt_writeAt_of_disjoint {q : Nat} (h : p + bs.length ≤ d.length)
    (hdisj : q + k ≤ p ∨ p + bs.length ≤ q) : readAt (writeAt d p bs) q k = readAt d q k := by
  refine ext_getElem? fun i => ?_
  rw [getElem?_readAt, getElem?_readAt]
  split
  · rw [getElem?_writeAt (by omega)]
    split
    · rfl
    · rw [if_neg (by omega)]
  · rfl

theorem readAt_append (h : p + k ≤ d.length) (e : List α) : readAt (d ++ e) p k = readAt d p k := by
  rw [readAt, readAt, drop_append_of_le_length (by omega),
    take_append_of_le_length (by simp; omega)]

/-! ## What stands at an offset -/

/-- `d` holds `bs` at `p`. -/
def HasAt (d : List α) (p : Nat) (bs : List α) : Prop :=
  ∃ pre post, d = pre ++ (bs ++ post) ∧ pre.length = p

theorem HasAt.bound (h : HasAt d p bs) : p + bs.length ≤ d.length := by
  rcases h with ⟨pre, post, rfl, rfl⟩
  simp only [length_append]
  omega

theorem HasAt.readAt (h : HasAt d p bs) : readAt d p bs.length = bs := by
  rcases h with ⟨pre, post, rfl, rfl⟩
  rw [Lib.readAt, drop_left, take_left]

theorem hasAt_iff : HasAt d p bs ↔ Lib.readAt d p bs.length = bs ∧ p + bs.length ≤ d.length := by
  refine ⟨fun h => ⟨h.readAt, h.bound⟩, fun ⟨hread, hbound⟩ => ?_⟩
  refine ⟨d.take p, d.drop (p + bs.length), ?_, by simp; omega⟩
  rw [← hread, Lib.readAt, length_take, length_drop, min_eq_left (by omega),
    ← drop_drop, take_append_drop, take_append_drop]

theorem HasAt.writeAt_self (h : p + bs.length ≤ d.length) : HasAt (writeAt d p bs) p bs :=
  hasAt_iff.2 ⟨readAt_writeAt_self h, by rwa [length_writeAt h]⟩

theorem HasAt.writeAt_of_disjoint {q : Nat} (h : HasAt d q as)
    (hfit : p + bs.length ≤ d.length) (hdisj : q + as.length ≤ p ∨ p + bs.length ≤ q) :
    HasAt (writeAt d p bs) q as := by
  obtain ⟨hread, hbound⟩ := hasAt_iff.1 h
  refine hasAt_iff.2 ⟨?_, by rwa [length_writeAt hfit]⟩
  rw [readAt_writeAt_of_disjoint hfit hdisj, hread]

theorem HasAt.writeAt_eq (h : HasAt d p bs) : writeAt d p bs = d := by
  rcases h with ⟨pre, post, rfl, rfl⟩
  rw [writeAt, take_left, ← append_assoc pre bs post, drop_left' (length_append ..)]

theorem hasAt_append : HasAt d p (as ++ bs) ↔ HasAt d p as ∧ HasAt d (p + as.length) bs := by
  constructor
  · rintro ⟨pre, post, rfl, rfl⟩
    exact ⟨⟨pre, bs ++ post, by simp, rfl⟩, ⟨pre ++ as, post, by simp, by simp⟩⟩
  · rintro ⟨⟨pre, post, hd, rfl⟩, ⟨pre', post', hd', hlen⟩⟩
    -- both splits cut the buffer at the same place
    have heq : pre ++ as = pre' :=
      (append_inj (by rw [append_assoc, ← hd, hd'] : (pre ++ as) ++ post = pre' ++ (bs ++ post'))
        (by simp [hlen])).1
    refine ⟨pre, post', ?_, rfl⟩
    rw [hd', ← heq]
    simp

theorem hasAt_singleton {a : α} : HasAt d p [a] ↔ d[p]? = some a := by
  constructor
  · rintro ⟨pre, post, rfl, rfl⟩
    simp
  · intro h
    obtain ⟨hp, rfl⟩ := List.getElem?_eq_some_iff.1 h
    exact ⟨d.take p, d.drop (p + 1), by simp, by simp; omega⟩

theorem hasAt_of_drop {rest : List α} (h : d.drop p = bs ++ rest) (hp : p ≤ d.length) :
    HasAt d p bs :=
  ⟨d.take p, rest, by rw [← h, take_append_drop], by simp [hp]⟩

theorem hasAt_readAt (h : p + k ≤ d.length) : HasAt d p (Lib.readAt d p k) :=
  hasAt_of_drop (take_append_drop k _).symm (by omega)

theorem hasAt_zero : HasAt d 0 bs ↔ d.take bs.length = bs := by
  refine ⟨HasAt.readAt, fun h => ⟨[], d.drop bs.length, ?_, rfl⟩⟩
  calc d = d.take bs.length ++ d.drop bs.length := (take_append_drop ..).symm
    _ = bs ++ d.drop bs.length := by rw [h]

theorem HasAt.take (h : HasAt d p bs) (hk : p + bs.length ≤ k) : HasAt (d.take k) p bs := by
  rcases h with ⟨pre, post, rfl, rfl⟩
  refine ⟨pre, post.take (k - (pre.length + bs.length)), ?_, rfl⟩
  rw [take_append, take_append, take_of_length_le (by omega),
    take_of_length_le (by omega), Nat.sub_sub]

theorem some_bind {α β : Type} (a : α) (f : α → Option β) : (some a >>= f) = f a := rfl

end Lib
end SnugKV
