import SnugKV.Engine.Glob
import SnugKV.Engine.ValueType
import SnugKV.Lib.Rank

/-!
# SCAN — iterating over the keys with a cursor

`ScanTyped` of `internal/engine/scan.go` collects the live keys of all shards, sorts them and takes
the window of `count` keys that starts at the cursor: the cursor is a position in the sorted list
of the keys that are live at the moment of the call.

* `Keyspace` — what a call reads of the store;
* `scanTyped` — one call;
* `iterate` — the calls of one iteration, each on the store of its moment;
* `Ahead` — between two calls the key is not overtaken by the cursor;
* `PassedKept` — between two calls no key goes away that the cursor has passed.
-/

namespace SnugKV
namespace Engine

open Lib List

/-! ## One call -/

/-- What a call reads of an entry: its deadline in milliseconds and its type. -/
structure KeyEntry where
  deadline : Option Int
  valueType : ValueType
  deriving DecidableEq, Repr

/-- The keys of a store, shard by shard in the order of the iteration over the shard's index. -/
structure Keyspace where
  shards : List (List (Bytes × KeyEntry))
  nodup : (shards.flatten.map Prod.fst).Nodup

def KeyEntry.expired (e : KeyEntry) (now : Int) : Bool :=
  match e.deadline with
  | none => false
  | some deadline => decide (deadline ≤ now)

namespace Keyspace

def liveKeys (s : Keyspace) (now : Int) : List Bytes :=
  (s.shards.flatten.filter (fun p => ! p.2.expired now)).map Prod.fst

/-- `Store.Type`. -/
def typeOf (s : Keyspace) (now : Int) (key : Bytes) : Bytes :=
  match s.shards.flatten.find? (fun p => decide (p.1 = key)) with
  | none => ascii "none"
  | some p => if p.2.expired now then ascii "none" else p.2.valueType.typeName

end Keyspace

/-- `strings.ToLower` as far as the names of types can tell: the ASCII letters, and the two other
runes whose lower case is an ASCII letter, the Kelvin sign and the dotted capital I. -/
def lowerName : Bytes → Bytes
  | 0xE2 :: 0x84 :: 0xAA :: s => 'k'.toUInt8 :: lowerName s
  | 0xC4 :: 0xB0 :: s => 'i'.toUInt8 :: lowerName s
  | b :: s => (if 'A'.toUInt8 ≤ b ∧ b ≤ 'Z'.toUInt8 then b + 32 else b) :: lowerName s
  | [] => []

/-- One call of an iteration: the store and the time it finds, and its COUNT. -/
structure ScanCall where
  store : Keyspace
  now : Int
  count : Int

namespace ScanCall

def keys (c : ScanCall) : List Bytes :=
  c.store.liveKeys c.now

def selects (pattern typeFilter : Bytes) (c : ScanCall) (key : Bytes) : Bool :=
  (decide (pattern = ascii "*") || redisGlobMatch pattern key) &&
    (decide (lowerName typeFilter = []) ||
      decide (lowerName (c.store.typeOf c.now key) = lowerName typeFilter))

/-- How many keys a call inspects from a cursor inside the list. -/
def work (c : ScanCall) (cursor : Nat) : Nat :=
  min (if c.count ≤ 0 then 10 else c.count.toNat) (c.keys.length - cursor)

/-- `ScanTyped`: the next cursor and the keys found. -/
def scanTyped (pattern typeFilter : Bytes) (c : ScanCall) (cursor : Nat) : Nat × List Bytes :=
  let keys := c.keys.insertionSort (· ≤ ·)
  if keys.length ≤ cursor then (0, [])
  else
    let stop := cursor + c.work cursor
    let out := ((keys.drop cursor).take (c.work cursor)).filter (c.selects pattern typeFilter)
    (if stop = keys.length then 0 else stop, out)

end ScanCall

/-! ## Iterations -/

section

variable (pattern typeFilter : Bytes)

/-- The calls of an iteration that follows the returned cursors, from `cursor` until 0 comes back:
the keys returned by all calls together, or `none` when the calls are not exactly those of an
iteration. -/
def iterate : List ScanCall → Nat → Option (List Bytes)
  | [], _ => none
  | c :: calls, cursor =>
    let (next, out) := c.scanTyped pattern typeFilter cursor
    if next = 0 then (if calls.isEmpty then some out else none)
    else (iterate calls next).map (out ++ ·)

/-- The calls of an iteration, each with the cursor it is made with. -/
def withCursors : List ScanCall → Nat → List (Nat × ScanCall)
  | [], _ => []
  | c :: calls, cursor => (cursor, c) :: withCursors calls (c.scanTyped pattern typeFilter cursor).1

end

/-- Between two calls the number of live keys that sort before `key` does not fall below the cursor
when it was not below it before. -/
def Ahead (key : Bytes) (p q : Nat × ScanCall) : Prop :=
  q.1 ≤ rank p.2.keys key → q.1 ≤ rank q.2.keys key

/-- Every key that the cursor of the second call has passed is still live there. -/
def PassedKept (p q : Nat × ScanCall) : Prop :=
  ∀ k ∈ p.2.keys, rank p.2.keys k < q.1 → k ∈ q.2.keys

instance decidablePassedKept : DecidableRel PassedKept := fun p q =>
  inferInstanceAs (Decidable (∀ k ∈ p.2.keys, rank p.2.keys k < q.1 → k ∈ q.2.keys))

/-! ## The window of a call -/

variable {pattern typeFilter : Bytes}

theorem sorted_keys (c : ScanCall) : (c.keys.insertionSort (· ≤ ·)).Pairwise (· < ·) := by
  have hle := pairwise_insertionSort (· ≤ ·) c.keys
  have hne : (c.keys.insertionSort (· ≤ ·)).Nodup :=
    (perm_insertionSort (· ≤ ·) c.keys).nodup_iff.2
      (c.store.nodup.sublist (Sublist.map Prod.fst filter_sublist))
  exact (hle.and hne).imp fun h => lt_of_le_of_ne h.1 h.2

variable {c : ScanCall} {cursor : Nat} {key : Bytes}

theorem mem_scanTyped (hkey : key ∈ c.keys) (hsel : c.selects pattern typeFilter key = true)
    (hc : cursor ≤ rank c.keys key) (hw : rank c.keys key < cursor + c.work cursor) :
    key ∈ (c.scanTyped pattern typeFilter cursor).2 := by
  have hperm := perm_insertionSort (· ≤ ·) c.keys
  have hlt := rank_lt_length hkey
  rw [ScanCall.scanTyped, hperm.length_eq, if_neg (by omega)]
  rw [← rank_perm hperm] at hc hw
  exact mem_filter.2 ⟨mem_window (sorted_keys c) (hperm.mem_iff.2 hkey) hc hw, hsel⟩

theorem le_rank_of_mem_scanTyped (h : key ∈ (c.scanTyped pattern typeFilter cursor).2) :
    cursor ≤ rank c.keys key := by
  rw [ScanCall.scanTyped] at h
  split_ifs at h
  · cases h
  all_goals
    have hmem := mem_of_mem_take (mem_filter.1 h).1
    rcases getElem?_of_mem hmem with ⟨i, hi⟩
    rw [getElem?_drop] at hi
    rw [← rank_perm (perm_insertionSort (· ≤ ·) c.keys), rank_of_getElem? (sorted_keys c) hi]
    exact Nat.le_add_right _ _

/-- Inside the list a call inspects a key at least; it ends the iteration exactly when it reaches
the end of the list. -/
theorem scanTyped_next (h : cursor < c.keys.length) : cursor < cursor + c.work cursor ∧
    (c.scanTyped pattern typeFilter cursor).1 =
      if cursor + c.work cursor = c.keys.length then 0 else cursor + c.work cursor := by
  constructor
  · have hpos : 0 < c.work cursor := by
      unfold ScanCall.work
      split_ifs <;> omega
    omega
  · rw [ScanCall.scanTyped, (perm_insertionSort (· ≤ ·) c.keys).length_eq, if_neg (by omega)]

theorem rank_lt_next (hne : (c.scanTyped pattern typeFilter cursor).1 ≠ 0)
    (h : key ∈ (c.scanTyped pattern typeFilter cursor).2) :
    rank c.keys key < (c.scanTyped pattern typeFilter cursor).1 := by
  rw [ScanCall.scanTyped] at h hne ⊢
  dsimp only at h hne ⊢
  split_ifs at h hne ⊢
  · exact absurd rfl hne
  · exact absurd rfl hne
  · have hmem := (mem_filter.1 h).1
    rcases mem_take_iff_getElem.1 hmem with ⟨i, hi, hget⟩
    have hat : (c.keys.insertionSort (· ≤ ·))[cursor + i]? = some key := by
      rw [← getElem?_drop, getElem?_eq_getElem (by omega), hget]
    rw [← rank_perm (perm_insertionSort (· ≤ ·) c.keys), rank_of_getElem? (sorted_keys c) hat]
    omega

/-! ## Whole iterations -/

/-- The iterations that follow the cursors to the end. -/
inductive Iterates (pattern typeFilter : Bytes) : List ScanCall → Nat → List Bytes → Prop
  | last {c : ScanCall} {cursor : Nat} (hzero : (c.scanTyped pattern typeFilter cursor).1 = 0) :
      Iterates pattern typeFilter [c] cursor (c.scanTyped pattern typeFilter cursor).2
  | more {c : ScanCall} {calls : List ScanCall} {cursor : Nat} {out : List Bytes}
      (hne : (c.scanTyped pattern typeFilter cursor).1 ≠ 0)
      (hrest : Iterates pattern typeFilter calls (c.scanTyped pattern typeFilter cursor).1 out) :
      Iterates pattern typeFilter (c :: calls) cursor
        ((c.scanTyped pattern typeFilter cursor).2 ++ out)

variable {calls : List ScanCall} {out : List Bytes}

theorem iterates_of_iterate (h : iterate pattern typeFilter calls cursor = some out) :
    Iterates pattern typeFilter calls cursor out := by
  induction calls generalizing cursor out with
  | nil => cases h
  | cons c calls ih =>
    rw [iterate] at h
    dsimp only at h
    split_ifs at h with hzero hlast
    · cases h
      rw [isEmpty_iff.1 hlast]
      exact .last hzero
    · obtain ⟨more, hmore, rfl⟩ := Option.map_eq_some_iff.1 h
      exact .more hzero (ih hmore)

theorem ahead_cons : (withCursors pattern typeFilter (c :: calls) cursor).IsChain (Ahead key) ↔
    (∀ c', calls.head? = some c' → (c.scanTyped pattern typeFilter cursor).1 ≤ rank c.keys key →
      (c.scanTyped pattern typeFilter cursor).1 ≤ rank c'.keys key) ∧
    (withCursors pattern typeFilter calls (c.scanTyped pattern typeFilter cursor).1).IsChain
      (Ahead key) := by
  cases calls <;> simp [withCursors, Ahead]

/-- Where no key goes away that the cursor has passed, the cursor overtakes no key. -/
theorem ahead_of_passed_kept {p q : Nat × ScanCall} (h : PassedKept p q) : Ahead key p q := by
  have hperm := perm_insertionSort (· ≤ ·) p.2.keys
  intro hle
  rw [← rank_perm hperm] at hle
  refine le_rank_of_kept (sorted_keys p.2) hle fun k hk hlt => ?_
  exact h k (hperm.mem_iff.1 hk) (by rwa [rank_perm hperm] at hlt)

/-- A key at the cursor or behind it is in the window of the call, or behind the next cursor. -/
theorem mem_or_le_next (hkey : key ∈ c.keys) (hsel : c.selects pattern typeFilter key = true)
    (hcursor : cursor ≤ rank c.keys key) : key ∈ (c.scanTyped pattern typeFilter cursor).2 ∨
      ((c.scanTyped pattern typeFilter cursor).1 ≠ 0 ∧
        (c.scanTyped pattern typeFilter cursor).1 ≤ rank c.keys key) := by
  have hlt := rank_lt_length hkey
  obtain ⟨hwork, hnext⟩ := @scanTyped_next pattern typeFilter c cursor (hcursor.trans_lt hlt)
  by_cases hin : rank c.keys key < cursor + c.work cursor
  · exact .inl (mem_scanTyped hkey hsel hcursor hin)
  · rw [hnext, if_neg (by omega)]
    exact .inr ⟨by omega, not_lt.1 hin⟩

/-- A key that is at the cursor or behind it at a call, and that the cursor does not overtake
between the calls, is returned by the rest of the iteration. -/
theorem mem_iterate (hrun : Iterates pattern typeFilter calls cursor out)
    (hkeys : ∀ c ∈ calls, key ∈ c.keys ∧ c.selects pattern typeFilter key = true)
    (hahead : (withCursors pattern typeFilter calls cursor).IsChain (Ahead key))
    (hfirst : ∀ c, calls.head? = some c → cursor ≤ rank c.keys key) : key ∈ out := by
  induction hrun with
  | @last c cursor hzero =>
    obtain ⟨hkey, hsel⟩ := hkeys c (by simp)
    exact (mem_or_le_next hkey hsel (hfirst c rfl)).resolve_right fun h => h.1 hzero
  | @more c calls cursor out _ _ ih =>
    obtain ⟨⟨hkey, hsel⟩, hrest⟩ := forall_mem_cons.1 hkeys
    obtain ⟨hover, hahead⟩ := ahead_cons.1 hahead
    rcases mem_or_le_next hkey hsel (hfirst c rfl) with hmem | ⟨-, hle⟩
    · exact mem_append_left _ hmem
    · -- the iteration goes on and has not passed the key
      exact mem_append_right _ (ih hrest hahead fun c' hc' => hover c' hc' hle)

theorem le_next (h : (c.scanTyped pattern typeFilter cursor).1 ≠ 0) :
    cursor ≤ (c.scanTyped pattern typeFilter cursor).1 := by
  by_cases hlen : cursor < c.keys.length
  · rcases @scanTyped_next pattern typeFilter c cursor hlen with ⟨hwork, hnext⟩
    rw [hnext] at h ⊢
    split_ifs at h ⊢
    · omega
    · omega
  · refine absurd ?_ h
    rw [ScanCall.scanTyped, (perm_insertionSort (· ≤ ·) c.keys).length_eq, if_pos (by omega)]

section

variable (hrun : Iterates pattern typeFilter calls cursor out)

include hrun

/-- A key that the cursor has overtaken, and that stays overtaken, is not returned any more. -/
theorem not_mem_iterate (hbehind : ∀ c ∈ calls, rank c.keys key < cursor) : key ∉ out := by
  have hnot : ∀ {c : ScanCall} {cursor : Nat}, rank c.keys key < cursor →
      key ∉ (c.scanTyped pattern typeFilter cursor).2 := fun hlt hmem =>
    absurd (le_rank_of_mem_scanTyped hmem) (not_le.2 hlt)
  induction hrun with
  | last => exact hnot (hbehind _ (by simp))
  | more hne _ ih =>
    obtain ⟨hc, hrest⟩ := forall_mem_cons.1 hbehind
    have hlater := ih fun c' hc' => (hrest c' hc').trans_le (le_next hne)
    exact fun hmem => (mem_append.1 hmem).elim (hnot hc) hlater

theorem ahead_of_behind
    (hbehind : ∀ c ∈ calls, rank c.keys key < cursor) :
    (withCursors pattern typeFilter calls cursor).IsChain (Ahead key) := by
  induction hrun with
  | last => exact .singleton _
  | more hne _ ih =>
    obtain ⟨hc, hrest⟩ := forall_mem_cons.1 hbehind
    have hnext := le_next hne
    exact ahead_cons.2 ⟨fun _ _ h => by omega, ih fun c' hc' => (hrest c' hc').trans_le hnext⟩

/-- When keys that sort before a returned key only go away, the cursor has not overtaken it. -/
theorem ahead_of_mem_iterate
    (hshrink : calls.Pairwise fun c c' => rank c'.keys key ≤ rank c.keys key)
    (hmem : key ∈ out) : (withCursors pattern typeFilter calls cursor).IsChain (Ahead key) := by
  induction hrun with
  | last => exact .singleton _
  | @more c calls cursor out hne hrun ih =>
    obtain ⟨hfirst, hrest⟩ := pairwise_cons.1 hshrink
    by_cases hin : rank c.keys key < (c.scanTyped pattern typeFilter cursor).1
    · -- passed by this call, and no later call finds more keys before it
      exact ahead_cons.2 ⟨fun _ _ h => by omega,
        ahead_of_behind hrun fun c' hc' => (hfirst c' hc').trans_lt hin⟩
    · -- not reached yet: it has to be among the keys of the later calls
      have hlater : key ∈ out :=
        (mem_append.1 hmem).resolve_left fun hhere => hin (rank_lt_next hne hhere)
      refine ahead_cons.2 ⟨fun c' hc' _ => ?_, ih hrest hlater⟩
      by_contra hover
      refine not_mem_iterate hrun (fun c'' hc'' => ?_) hlater
      obtain ⟨calls, rfl⟩ := head?_eq_some_iff.1 hc'
      rcases mem_cons.1 hc'' with rfl | htail
      · exact not_le.1 hover
      · exact ((pairwise_cons.1 hrest).1 c'' htail).trans_lt (not_le.1 hover)

end

/-- Every key that is live and selected during a whole iteration is returned, provided that no key
goes away which the cursor has passed, whatever else comes and goes.  It is enough that the cursor
never overtakes the key between two calls, and where the keys that sort before it only go away the
key is returned in no other case. -/
theorem scan_complete {key : Bytes} {calls : List ScanCall} {out : List Bytes}
    (hrun : iterate pattern typeFilter calls 0 = some out)
    (hkeys : ∀ c ∈ calls, key ∈ c.keys ∧ c.selects pattern typeFilter key = true) :
    ((withCursors pattern typeFilter calls 0).IsChain PassedKept → key ∈ out) ∧
    ((withCursors pattern typeFilter calls 0).IsChain (Ahead key) → key ∈ out) ∧
    (calls.Pairwise (fun c c' => rank c'.keys key ≤ rank c.keys key) →
      (key ∈ out ↔ (withCursors pattern typeFilter calls 0).IsChain (Ahead key))) := by
  have hreturned : (withCursors pattern typeFilter calls 0).IsChain (Ahead key) → key ∈ out :=
    fun hahead =>
      mem_iterate (iterates_of_iterate hrun) hkeys hahead fun _ _ => Nat.zero_le _
  refine ⟨fun hkept => hreturned (hkept.imp fun _ _ => ahead_of_passed_kept), hreturned, ?_⟩
  exact fun hshrink => ⟨ahead_of_mem_iterate (iterates_of_iterate hrun) hshrink, hreturned⟩

/-! ## Iterations over a store at rest -/

/-- One call on a store with these keys, of which `sel` are selected. -/
theorem scanTyped_at_rest {keys : List Bytes} {sel : Bytes → Bool} (hkeys : c.keys = keys)
    (hsel : ∀ k ∈ keys, c.selects pattern typeFilter k = sel k) (cursor : Nat) :
    ∃ n, (c.scanTyped pattern typeFilter cursor).2 =
        (((keys.insertionSort (· ≤ ·)).drop cursor).take n).filter sel ∧
      ((c.scanTyped pattern typeFilter cursor).1 = 0 → keys.length ≤ cursor + n) ∧
      ((c.scanTyped pattern typeFilter cursor).1 ≠ 0 →
        (c.scanTyped pattern typeFilter cursor).1 = cursor + n) := by
  have hlen := (perm_insertionSort (· ≤ ·) keys).length_eq
  refine ⟨c.work cursor, ?_⟩
  by_cases hlt : cursor < keys.length
  · obtain ⟨hpos, hnext⟩ := @scanTyped_next pattern typeFilter c cursor (hkeys ▸ hlt)
    rw [hkeys] at hnext
    refine ⟨?_, by rw [hnext]; split_ifs <;> omega, by rw [hnext]; split_ifs <;> omega⟩
    rw [ScanCall.scanTyped, hkeys, if_neg (by omega)]
    exact filter_congr fun k hk =>
      hsel k ((mem_insertionSort _).1 (mem_of_mem_drop (mem_of_mem_take hk)))
  · rw [ScanCall.scanTyped, hkeys, if_pos (by omega), drop_of_length_le (by omega)]
    exact ⟨by simp, fun _ => by omega, fun hne => absurd rfl hne⟩

/-- The calls from a cursor on return the selected keys behind it; their counts may differ. -/
theorem iterates_at_rest {keys : List Bytes} {sel : Bytes → Bool}
    (hrun : Iterates pattern typeFilter calls cursor out)
    (hrest : ∀ c ∈ calls, c.keys = keys ∧ ∀ k ∈ keys, c.selects pattern typeFilter k = sel k) :
    out = ((keys.insertionSort (· ≤ ·)).drop cursor).filter sel := by
  have hlen := (perm_insertionSort (· ≤ ·) keys).length_eq
  induction hrun with
  | @last c cursor hzero =>
    obtain ⟨hkeys, hsel⟩ := hrest c mem_cons_self
    obtain ⟨n, hout, hend, -⟩ := scanTyped_at_rest hkeys hsel cursor
    have hn := hend hzero
    rw [hout, take_of_length_le (by rw [length_drop]; omega)]
  | @more c calls cursor out hne _ ih =>
    obtain ⟨⟨hkeys, hsel⟩, hlater⟩ := forall_mem_cons.1 hrest
    obtain ⟨n, hout, -, hnext⟩ := scanTyped_at_rest hkeys hsel cursor
    rw [ih hlater, hout, hnext hne, ← filter_append, ← drop_drop, take_append_drop]

/-- An iteration over a store that does not change returns every selected key exactly once, in
ascending order, whatever the counts of its calls are. -/
theorem scan_at_rest {calls : List ScanCall} {out keys : List Bytes} {sel : Bytes → Bool}
    (hrun : iterate pattern typeFilter calls 0 = some out)
    (hrest : ∀ c ∈ calls, c.keys = keys ∧ ∀ k ∈ keys, c.selects pattern typeFilter k = sel k) :
    out.Pairwise (· < ·) ∧ ∀ key, key ∈ out ↔ key ∈ keys ∧ sel key = true := by
  have hout := iterates_at_rest (iterates_of_iterate hrun) hrest
  rw [drop_zero] at hout
  rw [hout]
  constructor
  · cases calls with
    | nil => cases hrun
    | cons c calls =>
      rw [← (hrest c mem_cons_self).1]
      exact (sorted_keys c).filter _
  · intro key
    rw [mem_filter, (perm_insertionSort (· ≤ ·) keys).mem_iff]

def fourKeys : Keyspace where
  shards := [[(ascii "c", ⟨none, .string⟩), (ascii "a", ⟨none, .string⟩)],
    [(ascii "d", ⟨none, .list⟩), (ascii "b", ⟨some 100, .string⟩)]]
  nodup := by decide +kernel

def withoutFirst : Keyspace where
  shards := [[(ascii "c", ⟨none, .string⟩)],
    [(ascii "d", ⟨none, .list⟩), (ascii "b", ⟨some 100, .string⟩)]]
  nodup := by decide +kernel

/-- The last key of `fourKeys` is gone, and there is one more between the first two. -/
def withAnother : Keyspace where
  shards := [[(ascii "c", ⟨none, .string⟩), (ascii "aa", ⟨none, .string⟩),
      (ascii "a", ⟨none, .string⟩)], [(ascii "b", ⟨some 100, .string⟩)]]
  nodup := by decide +kernel

theorem scan_complete_type_filter :
    ascii "c" ∈ [ascii "a", ascii "b", ascii "b", ascii "c"] :=
  (@scan_complete (ascii "*") (ascii "STRING") (ascii "c") [⟨fourKeys, 0, 2⟩, ⟨withAnother, 0, -1⟩]
    [ascii "a", ascii "b", ascii "b", ascii "c"] (by decide +kernel) (by decide +kernel)).1
    (by decide +kernel)

theorem scan_at_rest_two_counts : ([ascii "a", ascii "b", ascii "c"]).Pairwise (· < ·) :=
  (@scan_at_rest (ascii "*") (ascii "STRING") [⟨fourKeys, 0, 2⟩, ⟨fourKeys, 7, -1⟩] _
    (fourKeys.liveKeys 0) (fun k => k != ascii "d") (by decide +kernel) (by decide +kernel)).1

/-- Two calls with COUNT 2, and a passed key is deleted between them: the cursor 2 then skips a
key that was live all the time. -/
theorem scan_skips_after_delete :
    iterate (ascii "*") [] [⟨fourKeys, 0, 2⟩, ⟨withoutFirst, 0, 2⟩] 0 =
        some [ascii "a", ascii "b", ascii "d"] ∧
      ascii "c" ∈ fourKeys.liveKeys 0 ∧ ascii "c" ∈ withoutFirst.liveKeys 0 := by
  decide +kernel

end Engine
end SnugKV
