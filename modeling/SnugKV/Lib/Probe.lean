import Mathlib

/-!
# Probe — linear probing with tombstones, as a finite map

The cell array of an open-addressed table and the two loops that walk it:

* `scan` — a bounded loop over the slots of an array that starts at some slot and wraps
  around, with its invariant rule `scan_post`;
* `find` — the lookup loop: it stops at the first empty cell;
* `seek` — the insertion loop: it remembers the first tombstone it passes;
* `WellProbed` — no key is stored twice and no empty cell lies between the start of a
  key's probe sequence and its cell.

The results are that `find` decides membership, that `seek` gives a cell the key may be
written to, and that writing there, overwriting a value and leaving a tombstone all keep
`WellProbed` and change `entries` as a finite map changes.
-/

namespace SnugKV
namespace Lib

open List
namespace Probe

/-! ## The wrapping loop -/

/-- One pass of a loop body: go on with a new accumulator, or leave the loop. -/
inductive Step (σ ρ : Type*) where
  | next (s : σ)
  | done (r : ρ)

namespace Step

variable {σ ρ : Type*} {Q : ρ → Prop} {I : σ → Prop}

/-- `I` of the accumulator when the loop goes on, `Q` of the result when it is left. -/
def Post (I : σ → Prop) (Q : ρ → Prop) : Step σ ρ → Prop
  | next s => I s
  | done r => Q r

/-- The answer of a loop that finds nothing by running out of passes. -/
def answer : Step σ (Option ρ) → Option ρ
  | next _ => none
  | done r => r

@[simp] theorem post_next {s : σ} : (next s : Step σ ρ).Post I Q ↔ I s := Iff.rfl

@[simp] theorem post_done {r : ρ} : (done r : Step σ ρ).Post I Q ↔ Q r := Iff.rfl

end Step

section Scan

variable {σ ρ : Type*}

/-- `for n, i := 0, start; n < size; n, i = n+1, i+1 { if i == size { i = 0 }; body }`,
with `n` counting down. -/
def scan (size : Nat) (body : σ → Nat → Step σ ρ) : Nat → Nat → σ → Step σ ρ
  | 0, _, s => .next s
  | n + 1, i, s =>
    let i := if i = size then 0 else i
    match body s i with
    | .done r => .done r
    | .next s' => scan size body n (i + 1) s'

variable {size : Nat} {body : σ → Nat → Step σ ρ}

theorem wrap_succ {p : Nat} (hp : p < size) :
    (if p + 1 = size then 0 else p + 1) = (p + 1) % size := by
  by_cases h : p + 1 = size
  · simp [h]
  · rw [if_neg h, Nat.mod_eq_of_lt (by omega)]

theorem scan_post_aux {start : Nat} {I : Nat → σ → Prop} {Q : ρ → Prop} (hsize : 0 < size)
    (hbody : ∀ m s, m < size → I m s → (body s ((start + m) % size)).Post (I (m + 1)) Q) :
    ∀ (n m i : Nat) (s : σ), m + n = size →
      (if i = size then 0 else i) = (start + m) % size → I m s →
      (scan size body n i s).Post (I size) Q := by
  intro n
  induction n with
  | zero =>
    intro m i s hm _ hI
    have : m = size := by omega
    simpa [scan, this] using hI
  | succ n ih =>
    intro m i s hm hi hI
    have hstep := hbody m s (by omega) hI
    simp only [scan, hi]
    cases hb : body s ((start + m) % size) with
    | done r =>
      simpa [hb] using hstep
    | next s' =>
      have hnext : (if (start + m) % size + 1 = size then 0 else (start + m) % size + 1) =
          (start + (m + 1)) % size := by
        rw [wrap_succ (Nat.mod_lt _ hsize), ← add_assoc, Nat.add_mod (start + m) 1,
          Nat.add_mod ((start + m) % size) 1, Nat.mod_mod]
      exact ih (m + 1) _ s' (by omega) hnext (by simpa [hb] using hstep)

/-- The invariant rule of the loop: `I m` holds of the accumulator after `m` passes, the
`m`-th pass being at slot `(start + m) % size`. -/
theorem scan_post {start : Nat} {s : σ} (I : Nat → σ → Prop) (Q : ρ → Prop) (hstart : start < size)
    (h0 : I 0 s)
    (hbody : ∀ m s, m < size → I m s → (body s ((start + m) % size)).Post (I (m + 1)) Q) :
    (scan size body size start s).Post (I size) Q := by
  refine scan_post_aux (by omega) hbody size 0 start s (by omega) ?_ h0
  rw [if_neg (by omega), add_zero, Nat.mod_eq_of_lt hstart]

theorem scan_congr {body' : σ → Nat → Step σ ρ} (h : ∀ s i, i < size → body s i = body' s i) :
    ∀ (n i : Nat) (s : σ), i ≤ size → 0 < size → scan size body n i s = scan size body' n i s := by
  intro n
  induction n with
  | zero =>
    intro i s _ _
    rfl
  | succ n ih =>
    intro i s hi hsize
    have hlt : (if i = size then 0 else i) < size := by
      split <;> omega
    simp only [scan, h s _ hlt]
    cases body' s (if i = size then 0 else i) with
    | done r => rfl
    | next s' => exact ih _ s' (by omega) hsize

end Scan

/-! ## Cells -/

inductive Cell (K V : Type*) where
  | empty
  | deleted
  | live (k : K) (v : V)
  deriving DecidableEq, Repr

section Cells

variable {K V : Type*}

def Cell.entry : Cell K V → Option (K × V)
  | live k v => some (k, v)
  | _ => none

def entries (cells : List (Cell K V)) : List (K × V) :=
  cells.filterMap Cell.entry

theorem entries_cons (c : Cell K V) (cells : List (Cell K V)) :
    entries (c :: cells) = c.entry.toList ++ entries cells := by
  cases hc : c.entry <;> simp [entries, hc]

variable {cells : List (Cell K V)} {i : Nat}

variable {k : K} {v : V}

theorem mem_entries : (k, v) ∈ entries cells ↔ ∃ i : Nat, cells[i]? = some (Cell.live k v) := by
  rw [entries, mem_filterMap]
  constructor
  · rintro ⟨c, hc, he⟩
    obtain ⟨i, hi⟩ := mem_iff_getElem?.1 hc
    cases c <;> simp [Cell.entry] at he
    obtain ⟨rfl, rfl⟩ := he
    exact ⟨i, hi⟩
  · rintro ⟨i, hi⟩
    exact ⟨_, mem_iff_getElem?.2 ⟨i, hi⟩, rfl⟩

theorem entries_set_perm {old : Cell K V} (h : cells[i]? = some old) (c : Cell K V) :
    (old.entry.toList ++ entries (cells.set i c)).Perm (c.entry.toList ++ entries cells) := by
  induction cells generalizing i with
  | nil => simp at h
  | cons a cells ih =>
    cases i with
    | zero =>
      have : a = old := by simpa using h
      subst this
      simp only [set_cons_zero, entries_cons, ← append_assoc]
      exact Perm.append_right _ perm_append_comm
    | succ i =>
      have hih := ih (i := i) (by simpa using h)
      simp only [set_cons_succ, entries_cons]
      calc old.entry.toList ++ (a.entry.toList ++ entries (cells.set i c))
          |>.Perm (a.entry.toList ++ (old.entry.toList ++ entries (cells.set i c))) := by
            simp only [← append_assoc]
            exact Perm.append_right _ perm_append_comm
        _ |>.Perm (a.entry.toList ++ (c.entry.toList ++ entries cells)) :=
            Perm.append_left _ hih
        _ |>.Perm (c.entry.toList ++ (a.entry.toList ++ entries cells)) := by
            simp only [← append_assoc]
            exact Perm.append_right _ perm_append_comm

/-- A cell that a new key may be written to. -/
def Vacant (cells : List (Cell K V)) (i : Nat) : Prop :=
  cells[i]? = some Cell.empty ∨ cells[i]? = some Cell.deleted

theorem Vacant.lt (h : Vacant cells i) : i < cells.length := by
  rcases h with h | h <;> exact (List.getElem?_eq_some_iff.1 h).1

theorem entries_place (h : Vacant cells i) (k : K) (v : V) :
    (entries (cells.set i (.live k v))).Perm ((k, v) :: entries cells) := by
  rcases h with h | h <;> simpa [Cell.entry] using entries_set_perm h (.live k v)

theorem entries_erase (h : cells[i]? = some (Cell.live k v)) :
    ((k, v) :: entries (cells.set i .deleted)).Perm (entries cells) := by
  simpa [Cell.entry] using entries_set_perm h .deleted

theorem entries_update (h : cells[i]? = some (Cell.live k v)) (v' : V) :
    ((k, v) :: entries (cells.set i (.live k v'))).Perm ((k, v') :: entries cells) := by
  simpa [Cell.entry] using entries_set_perm h (.live k v')

theorem entries_length_of_full (h : ∀ i, ¬ Vacant cells i) :
    (entries cells).length = cells.length := by
  have hlive : ∀ c ∈ cells, c.entry.isSome := by
    intro c hc
    obtain ⟨i, hi⟩ := mem_iff_getElem?.1 hc
    cases c with
    | empty => exact absurd (Or.inl hi) (h i)
    | deleted => exact absurd (Or.inr hi) (h i)
    | live k v => rfl
  exact filterMap_length_eq_length.2 hlive

/-! ## Probe sequences -/

/-- Slot `i` lies on the probe sequence that starts at `s`, with no empty cell before it. -/
def Reached (cells : List (Cell K V)) (s i : Nat) : Prop :=
  ∃ d < cells.length, (s + d) % cells.length = i ∧
    ∀ m < d, cells[(s + m) % cells.length]? ≠ some Cell.empty

variable {s n d : Nat} {c : Cell K V}

theorem Reached.set (h : Reached cells s i) (j : Nat) (hc : c ≠ .empty) :
    Reached (cells.set j c) s i := by
  obtain ⟨d, hd, hi, hfree⟩ := h
  refine ⟨d, by simpa using hd, by simpa using hi, ?_⟩
  intro m hm hempty
  rw [length_set, getElem?_set] at hempty
  split_ifs at hempty with hj hlt
  · exact hc (by simpa using hempty)
  · exact hfree m hm hempty

/-- No key is stored twice, and each is reached from the start of its probe sequence. -/
structure WellProbed (start : K → Nat) (cells : List (Cell K V)) : Prop where
  start_lt : ∀ k, start k < cells.length
  reached : ∀ (i : Nat) (k : K) (v : V), cells[i]? = some (Cell.live k v) →
    Reached cells (start k) i
  unique : ∀ (i j : Nat) (k : K) (v v' : V),
    cells[i]? = some (Cell.live k v) → cells[j]? = some (Cell.live k v') → i = j

namespace WellProbed

variable {start : K → Nat} {cells : List (Cell K V)}

theorem keys_nodup (h : WellProbed start cells) : ((entries cells).map Prod.fst).Nodup := by
  -- two equal keys sit in the same cell, so `filterMap` meets the key once
  have hcells : cells.Pairwise fun c c' => ∀ k v v', c = .live k v → c' ≠ .live k v' := by
    refine pairwise_iff_getElem.2 fun i j hi hj hlt k v v' hc hc' => hlt.ne ?_
    exact h.unique i j k v v' (by rw [getElem?_eq_getElem hi, hc])
      (by rw [getElem?_eq_getElem hj, hc'])
  rw [Nodup, pairwise_map, entries, pairwise_filterMap]
  refine hcells.imp fun {c c'} hne => ?_
  rintro ⟨k, v⟩ he ⟨k', v'⟩ he' (rfl : k = k')
  cases c <;> cases he
  cases c' <;> cases he'
  exact hne _ _ _ rfl rfl

theorem replicate_empty (hstart : ∀ k, start k < n) :
    WellProbed start (replicate n (.empty : Cell K V)) where
  start_lt := by simpa using hstart
  reached := by
    intro i k v h
    simp [getElem?_replicate] at h
  unique := by
    intro i j k v v' h
    simp [getElem?_replicate] at h

section

variable (h : WellProbed start cells)

include h

/-- Any cell array keeps its probe sequences when a non-empty cell is written that adds no
second copy of a key and lies where its own key can reach it. -/
theorem set (hc : c ≠ .empty)
    (hreach : ∀ k v, c = .live k v → Reached cells (start k) i)
    (huniq : ∀ (j : Nat) (k : K) (v v' : V), c = .live k v → cells[j]? = some (Cell.live k v') →
      i = j) :
    WellProbed start (cells.set i c) where
  start_lt := by simpa using h.start_lt
  reached := by
    intro j k v hj
    rw [getElem?_set] at hj
    split_ifs at hj with hij hlt
    · subst hij
      exact (hreach k v (by simpa using hj)).set _ hc
    · exact (h.reached j k v hj).set _ hc
  unique := by
    intro j j' k v v' hj hj'
    rw [getElem?_set] at hj hj'
    by_cases h1 : i = j <;> by_cases h2 : i = j'
    · exact h1.symm.trans h2
    · rw [if_pos h1] at hj
      rw [if_neg h2] at hj'
      split_ifs at hj
      exact h1 ▸ huniq j' k v v' (by simpa using hj) hj'
    · rw [if_neg h1] at hj
      rw [if_pos h2] at hj'
      split_ifs at hj'
      exact h2 ▸ (huniq j k v' v (by simpa using hj') hj).symm
    · rw [if_neg h1] at hj
      rw [if_neg h2] at hj'
      exact h.unique j j' k v v' hj hj'

theorem place (v : V)
    (hreach : Reached cells (start k) i)
    (habsent : ∀ (j : Nat) (v' : V), cells[j]? ≠ some (Cell.live k v')) :
    WellProbed start (cells.set i (.live k v)) := by
  refine h.set (by simp) ?_ ?_
  · intro k' v' hc
    cases hc
    exact hreach
  · intro j k' v' w hc hj
    cases hc
    exact absurd hj (habsent j w)

theorem update
    (hi : cells[i]? = some (Cell.live k v)) (v' : V) :
    WellProbed start (cells.set i (.live k v')) := by
  refine h.set (by simp) ?_ ?_
  · intro k' w hc
    cases hc
    exact h.reached i k v hi
  · intro j k' w w' hc hj
    cases hc
    exact h.unique i j k v w' hi hj

theorem erase (i : Nat) :
    WellProbed start (cells.set i .deleted) :=
  h.set (by simp) (by simp) (by simp)

end

end WellProbed

/-! ## The finite map an array represents -/

/-- The pairs of the array are the graph of `m`. -/
def Models (cells : List (Cell K V)) (m : K → Option V) : Prop :=
  ∀ k v, (k, v) ∈ entries cells ↔ m k = some v

namespace Models

variable {cells cells' : List (Cell K V)} {m : K → Option V}

theorem of_perm (h : Models cells m) (hperm : (entries cells').Perm (entries cells)) :
    Models cells' m :=
  fun k v => hperm.mem_iff.trans (h k v)

theorem absent (h : Models cells m) (hk : m k = none) (i : Nat) (v : V) :
    cells[i]? ≠ some (Cell.live k v) := by
  intro hi
  have := (h k v).1 (mem_entries.2 ⟨i, hi⟩)
  rw [hk] at this
  cases this

variable [DecidableEq K] {start : K → Nat}

theorem place (h : Models cells m) (hi : Vacant cells i) (hk : m k = none)
    (v : V) : Models (cells.set i (.live k v)) (Function.update m k (some v)) := by
  intro k' v'
  rw [(entries_place hi k v).mem_iff, mem_cons, h k' v']
  by_cases hkk : k' = k
  · subst hkk
    simp [hk, eq_comm]
  · simp [hkk]

theorem update (h : Models cells m) (hw : WellProbed start cells)
    (hi : cells[i]? = some (Cell.live k v)) (v' : V) :
    Models (cells.set i (.live k v')) (Function.update m k (some v')) := by
  intro k' w
  have hnew : (cells.set i (Cell.live k v'))[i]? = some (Cell.live k v') :=
    List.getElem?_set_self (List.getElem?_eq_some_iff.1 hi).1
  by_cases hkk : k' = k
  · subst hkk
    rw [Function.update_self, mem_entries]
    constructor
    · rintro ⟨j, hj⟩
      have hij := (hw.update hi v').unique j i k' w v' hj hnew
      rw [hij, hnew] at hj
      cases hj
      rfl
    · intro hw'
      cases hw'
      exact ⟨i, hnew⟩
  · have hmem := (entries_update hi v').mem_iff (a := (k', w))
    rw [Function.update_of_ne hkk, ← h k' w]
    simpa [hkk] using hmem

theorem erase (h : Models cells m) (hw : WellProbed start cells)
    (hi : cells[i]? = some (Cell.live k v)) :
    Models (cells.set i .deleted) (Function.update m k none) := by
  intro k' w
  have hmem := (entries_erase hi).mem_iff (a := (k', w))
  by_cases hkk : k' = k
  · subst hkk
    rw [Function.update_self]
    -- a second copy of the key would sit in the cell that is now a tombstone
    simp only [reduceCtorEq, iff_false]
    intro hin
    obtain ⟨j, hj⟩ := mem_entries.1 hin
    rw [getElem?_set] at hj
    split_ifs at hj with hij hlt
    · cases hj
    · exact hij (hw.unique i j k' v w hi hj)
  · rw [Function.update_of_ne hkk, ← h k' w]
    simpa [hkk] using hmem

end Models

/-! ## The lookup loop -/

/-- One pass of the lookup loop: an empty cell ends the probe sequence. -/
def findBody (p : K → Bool) (cells : List (Cell K V)) (_ : Unit) (i : Nat) :
    Step Unit (Option Nat) :=
  match cells[i]? with
  | some .empty => .done none
  | some (.live k _) => if p k then .done (some i) else .next ()
  | _ => .next ()

/-- The slot of the first pair whose key satisfies `p`. -/
def find (p : K → Bool) (cells : List (Cell K V)) (s : Nat) : Option Nat :=
  (scan cells.length (findBody p cells) cells.length s ()).answer

variable {start : K → Nat} {cells : List (Cell K V)} {p : K → Bool} {deleted : Option Nat} {m : Nat}

/-! ## A table without tombstones

Where nothing is ever deleted, the first cell of a probe sequence that is empty or holds the key
decides. -/

theorem exists_probe (hs : s < n) (hi : i < n) : ∃ d < n, (s + d) % n = i := by
  refine ⟨(n + i - s) % n, Nat.mod_lt _ (by omega), ?_⟩
  rw [Nat.add_mod_mod, show s + (n + i - s) = n + i by omega, Nat.add_mod_left, Nat.mod_eq_of_lt hi]

theorem exists_empty (hnone : ∀ i : Nat, cells[i]? ≠ some .deleted)
    (hroom : (entries cells).length < cells.length) : ∃ i : Nat, cells[i]? = some .empty := by
  by_contra hfull
  refine absurd (entries_length_of_full fun i hvacant => ?_) hroom.ne
  rcases hvacant with h | h
  · exact hfull ⟨i, h⟩
  · exact hnone i h

/-- The `d`-th cell is the first one that is not a pair of another key. -/
theorem WellProbed.stop (h : WellProbed start cells) (hd : d < cells.length)
    (hpassed : ∀ j < d, ∃ k' v, cells[(start k + j) % cells.length]? = some (.live k' v) ∧ k' ≠ k) :
    Reached cells (start k) ((start k + d) % cells.length) ∧
      (cells[(start k + d) % cells.length]? = some .empty →
        ∀ (i : Nat) (v : V), cells[i]? ≠ some (.live k v)) := by
  have hlive : ∀ j < d, cells[(start k + j) % cells.length]? ≠ some .empty := by
    intro j hj hempty
    obtain ⟨k', v, hcell, -⟩ := hpassed j hj
    rw [hcell] at hempty
    cases hempty
  refine ⟨⟨d, hd, rfl, hlive⟩, fun hempty i v hi => ?_⟩
  obtain ⟨e, he, hpos, hfree⟩ := h.reached i k v hi
  rcases lt_trichotomy e d with hlt | rfl | hgt
  · obtain ⟨k', v', hcell, hne⟩ := hpassed e hlt
    rw [hpos, hi] at hcell
    cases hcell
    exact hne rfl
  · rw [hpos, hi] at hempty
    cases hempty
  · exact hfree d hgt hempty

/-- A search over an initial part of the numbers stops at the first hit. -/
theorem findSome?_range {β : Type*} {f : Nat → Option β} (hd : d < n)
    (hstop : f d ≠ none) :
    ∃ e < n, (range n).findSome? f = f e ∧ f e ≠ none ∧ ∀ j < e, f j = none := by
  induction n generalizing d with
  | zero => omega
  | succ n ih =>
    rw [range_succ, findSome?_append]
    by_cases hbefore : ∀ j < n, f j = none
    · have hnone : (range n).findSome? f = none := by
        simpa [findSome?_eq_none_iff] using hbefore
      have hdn : d = n := by
        by_contra hne
        exact hstop (hbefore d (by omega))
      subst hdn
      exact ⟨d, by omega, by simp [hnone], hstop, hbefore⟩
    · push Not at hbefore
      obtain ⟨j, hj, hfj⟩ := hbefore
      obtain ⟨e, he, hfind, hne, hfirst⟩ := ih hj hfj
      obtain ⟨b, hb⟩ := Option.ne_none_iff_exists'.1 hne
      exact ⟨e, by omega, by simp [hfind, hb], hne, hfirst⟩

/-! ## The insertion loop -/

/-- Where the insertion loop stops: at the key itself or at a cell it may take. -/
inductive Spot where
  | found (i : Nat)
  | vacant (i : Nat)
  deriving DecidableEq, Repr

/-- One pass of the insertion loop; the accumulator is the first tombstone passed. -/
def seekBody (p : K → Bool) (cells : List (Cell K V)) (deleted : Option Nat) (i : Nat) :
    Step (Option Nat) Spot :=
  match cells[i]? with
  | some .empty => .done (.vacant (deleted.getD i))
  | some (.live k _) => if p k then .done (.found i) else .next deleted
  | _ => .next (deleted.or (some i))

/-- After the last pass the remembered tombstone, if any, is taken. -/
def Spot.ofStep : Step (Option Nat) Spot → Option Spot
  | .next none => none
  | .next (some d) => some (.vacant d)
  | .done r => some r

/-- The slot of the key `p` accepts, or else the slot a new key goes to: the first tombstone
of the probe sequence, or the empty cell that ends it; `none` when every cell is live. -/
def seek (p : K → Bool) (cells : List (Cell K V)) (s : Nat) : Option Spot :=
  Spot.ofStep (scan cells.length (seekBody p cells) cells.length s none)

/-- What the insertion loop knows after `m` passes: it met no empty cell and no accepted key,
and it remembers the first tombstone among the cells passed. -/
structure Passed (p : K → Bool) (cells : List (Cell K V)) (s m : Nat)
    (deleted : Option Nat) : Prop where
  no_empty : ∀ j < m, cells[(s + j) % cells.length]? ≠ some Cell.empty
  no_match : ∀ j < m, ∀ (k : K) (v : V),
    cells[(s + j) % cells.length]? = some (Cell.live k v) → p k = false
  tombstone : ∀ d, deleted = some d →
    ∃ j < m, (s + j) % cells.length = d ∧ cells[d]? = some Cell.deleted
  no_tombstone : deleted = none → ∀ j < m, cells[(s + j) % cells.length]? ≠ some Cell.deleted

/-- A key that `p` accepts and that is stored on the probe sequence is met before an empty
cell: after `m` passes that met neither, its slot is still ahead. -/
theorem Passed.ahead (hpassed : Passed p cells (start k) m deleted)
    (h : WellProbed start cells) (hp : p k = true)
    (hi : cells[i]? = some (Cell.live k v)) :
    ∃ d, m ≤ d ∧ d < cells.length ∧ (start k + d) % cells.length = i ∧
      ∀ j < d, cells[(start k + j) % cells.length]? ≠ some Cell.empty := by
  obtain ⟨d, hd, hpos, hfree⟩ := h.reached i k v hi
  refine ⟨d, ?_, hd, hpos, hfree⟩
  by_contra hlt
  have := hpassed.no_match d (by omega) k v (by rw [hpos, hi])
  rw [hp] at this
  exact absurd this (by simp)

theorem Passed.pass {deleted' : Option Nat}
    (h : Passed p cells s m deleted) (hc : cells[(s + m) % cells.length]? = some c)
    (hempty : c ≠ .empty) (hmatch : ∀ k v, c = .live k v → p k = false)
    (hkept : ∀ d, deleted' = some d → deleted = some d ∨ (s + m) % cells.length = d ∧ c = .deleted)
    (hnone : deleted' = none → deleted = none ∧ c ≠ .deleted) :
    Passed p cells s (m + 1) deleted' where
  no_empty := Nat.forall_lt_succ_right.2 ⟨h.no_empty, by simpa [hc] using hempty⟩
  no_match := Nat.forall_lt_succ_right.2 ⟨h.no_match, by simpa [hc] using hmatch⟩
  tombstone := by
    intro d hd
    rcases hkept d hd with hd | ⟨hd, rfl⟩
    · obtain ⟨j, hj, hjd, hcell⟩ := h.tombstone d hd
      exact ⟨j, by omega, hjd, hcell⟩
    · exact ⟨m, by omega, hd, hd ▸ hc⟩
  no_tombstone := by
    intro hd
    obtain ⟨hd, hlive⟩ := hnone hd
    exact Nat.forall_lt_succ_right.2 ⟨h.no_tombstone hd, by simpa [hc] using hlive⟩

theorem Passed.vacant_tombstone (h : Passed p cells s m deleted)
    (hm : m ≤ cells.length) (hd : deleted = some d) : Vacant cells d ∧ Reached cells s d := by
  obtain ⟨j, hj, hjd, hcell⟩ := h.tombstone d hd
  exact ⟨Or.inr hcell, j, by omega, hjd, fun j' hj' => h.no_empty j' (by omega)⟩

/-- What the insertion loop promises about its answer. -/
def SeekPost (p : K → Bool) (cells : List (Cell K V)) (s : Nat) : Option Spot → Prop
  | some (.found i) => ∃ k v, p k = true ∧ cells[i]? = some (Cell.live k v)
  | some (.vacant i) => Vacant cells i ∧ Reached cells s i
  | none => ∀ i, ¬ Vacant cells i

theorem seek_spec (h : WellProbed start cells) (p : K → Bool) (k : K) :
    SeekPost p cells (start k) (seek p cells (start k)) ∧
      (p k = true → (∀ i, seek p cells (start k) ≠ some (.found i)) →
        ∀ (i : Nat) (v : V), cells[i]? ≠ some (Cell.live k v)) := by
  set s := start k
  have hpos : 0 < cells.length := lt_of_le_of_lt (Nat.zero_le _) (h.start_lt k)
  have hpost : (scan cells.length (seekBody p cells) cells.length s none).Post
      (Passed p cells s cells.length)
      (fun r => SeekPost p cells s (some r) ∧ (p k = true → (∀ i, r ≠ .found i) →
        ∀ (i : Nat) (v : V), cells[i]? ≠ some (Cell.live k v))) :=
    scan_post (Passed p cells s) _ (h.start_lt k) ⟨by simp, by simp, by simp, by simp⟩ (by
      intro m deleted hm hI
      simp only [seekBody]
      cases hc : cells[(s + m) % cells.length]? with
      | none =>
        have := getElem?_eq_none_iff.1 hc
        exact absurd (Nat.mod_lt (s + m) hpos) (by omega)
      | some c =>
        cases c with
        | empty =>
          refine ⟨?_, ?_⟩
          · cases hdel : deleted with
            | none => exact ⟨Or.inl hc, m, hm, rfl, hI.no_empty⟩
            | some d => exact hI.vacant_tombstone hm.le hdel
          · intro hp _ i v hi
            obtain ⟨d, hmd, _, hd, hfree⟩ := hI.ahead h hp hi
            rcases Nat.lt_or_ge m d with hlt | hge
            · exact hfree m hlt hc
            · have : d = m := by omega
              subst this
              rw [← hd, hc] at hi
              simp at hi
        | deleted =>
          refine hI.pass hc (by simp) (by simp) (fun d hd => ?_) (by simp)
          cases deleted with
          | none => exact .inr ⟨Option.some.inj hd, rfl⟩
          | some d' => exact .inl hd
        | live k' v' =>
          by_cases hp' : p k' = true
          · simp only [hp', if_true]
            exact ⟨⟨k', v', hp', hc⟩, fun _ hne => absurd rfl (hne _)⟩
          · simp only [hp', Bool.false_eq_true, if_false]
            exact hI.pass hc (by simp) (by simpa using hp') (fun _ => .inl) (by simp))
  unfold seek
  cases hscan : scan cells.length (seekBody p cells) cells.length s none with
  | done r =>
    rw [hscan] at hpost
    refine ⟨hpost.1, fun hp hne => hpost.2 hp (fun i hi => hne i (congrArg some hi))⟩
  | next deleted =>
    rw [hscan] at hpost
    have hI : Passed p cells s cells.length deleted := hpost
    -- every slot has been passed, so an accepted key would have been met
    have habsent : p k = true → ∀ (i : Nat) (v : V), cells[i]? ≠ some (Cell.live k v) := by
      intro hp i v hi
      obtain ⟨d, hge, hlt, _⟩ := hI.ahead h hp hi
      omega
    cases hdel : deleted with
    | none =>
      refine ⟨fun i hvac => ?_, fun hp _ => habsent hp⟩
      -- slot `i` was passed at this distance from the start
      obtain ⟨d, hd, rfl⟩ := exists_probe (h.start_lt k) hvac.lt
      rcases hvac with hv | hv
      · exact hI.no_empty d hd hv
      · exact hI.no_tombstone hdel d hd hv
    | some d =>
      exact ⟨hI.vacant_tombstone le_rfl hdel, fun hp _ => habsent hp⟩

theorem answer_scan_findBody (n i : Nat) (deleted : Option Nat) :
    (scan cells.length (findBody p cells) n i ()).answer =
      match scan cells.length (seekBody p cells) n i deleted with
      | .done (.found i) => some i
      | _ => none := by
  induction n generalizing i deleted with
  | zero => rfl
  | succ n ih =>
    simp only [scan, findBody, seekBody]
    cases cells[if i = cells.length then 0 else i]? with
    | none => exact ih ..
    | some c =>
      cases c with
      | empty => rfl
      | deleted => exact ih ..
      | live k v =>
        by_cases hp : p k = true
        · simp only [hp, if_true, Step.answer]
        · simp only [hp, Bool.false_eq_true, if_false]
          exact ih ..

theorem find_spec [DecidableEq K] (h : WellProbed start cells) (k : K) :
    (∃ i v, find (fun k' => decide (k' = k)) cells (start k) = some i ∧
      cells[i]? = some (Cell.live k v)) ∨
      (find (fun k' => decide (k' = k)) cells (start k) = none ∧
        ∀ (i : Nat) (v : V), cells[i]? ≠ some (Cell.live k v)) := by
  obtain ⟨hpost, habsent⟩ := seek_spec h (fun k' => decide (k' = k)) k
  rw [find, answer_scan_findBody _ _ none]
  unfold seek at hpost habsent
  cases hscan : scan cells.length (seekBody (fun k' => decide (k' = k)) cells) cells.length
    (start k) none with
  | next deleted =>
    rw [hscan] at habsent
    exact .inr ⟨rfl, habsent (by simp) (by cases deleted <;> simp [Spot.ofStep])⟩
  | done r =>
    rw [hscan] at hpost habsent
    cases r with
    | found i =>
      obtain ⟨k', v, hk, hi⟩ := hpost
      obtain rfl : k' = k := by simpa using hk
      exact .inl ⟨i, v, rfl, hi⟩
    | vacant i => exact .inr ⟨rfl, habsent (by simp) (by simp [Spot.ofStep])⟩

end Cells

end Probe
end Lib
end SnugKV
