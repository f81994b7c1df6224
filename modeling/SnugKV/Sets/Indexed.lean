import SnugKV.Lib.Probe
import SnugKV.Sets.Packed

/-!
# Indexed — the hash-indexed form of a set

The codec of `engine/set_indexed.go`.  Behind a header of fifteen bytes (`SS4`, the number of
members, the number of slots, the bytes of payload in use) stands a table of four-byte slots, each
empty or one more than the position of a record, and behind the table the records themselves with
some room to grow.

* `Table`                 — the bytes hold a well-probed table of cells, with a record for each;
* `Table.indexedSetFindKnown_spec` — the probe loop finds a member or the slot a new one goes to;
* `Table.put`             — writing a record, its slot and the counters keeps `Table`;
* `encodeIndexedSet_spec`, `Indexed.decodeIndexedSet` — building a table and reading it back;
* `addEach_spec`          — adding in place, or by building a new table.

Slices out of bounds and the errors about damaged values are `none`.
-/

namespace SnugKV
namespace Sets

open Lib Probe List

/-- `SS4`. -/
def indexedSetHeader : Bytes := [0x53, 0x53, 4]

def indexedSetFixed : Nat := 15

def indexedSetPromoteMembers : Nat := 32

def tinySetMaxMembers : Nat := 128

def setPromoteThreshold : List Bytes → Nat
  | m :: m' :: ms =>
    if ∀ x ∈ m' :: ms, x.length = m.length then tinySetMaxMembers else indexedSetPromoteMembers
  | _ => indexedSetPromoteMembers

def isIndexedSet (data : Bytes) : Bool :=
  indexedSetFixed ≤ data.length && data.take 3 == indexedSetHeader

/-- What the header says. -/
structure Meta where
  count : Nat
  slots : Nat
  used : Nat
  dataStart : Nat
  deriving DecidableEq, Repr

def indexedSetMeta (data : Bytes) : Option Meta :=
  if ¬ isIndexedSet data then none
  else
    let count := getUint (readAt data 3 4)
    let slots := getUint (readAt data 7 4)
    let used := getUint (readAt data 11 4)
    if slots < 8 ∨ slots &&& (slots - 1) ≠ 0 ∨ count > slots then none
    else
      let dataStart := indexedSetFixed + slots * 4
      if dataStart > data.length ∨ dataStart + used > data.length then none
      else some ⟨count, slots, used, dataStart⟩

/-- The doubling loop, for at most `fuel` rounds. -/
def doubleUp (n : Nat) : Nat → Nat → Nat
  | 0, p => p
  | fuel + 1, p => if p < n then doubleUp n fuel (2 * p) else p

def nextSetPow2 (n : Nat) : Nat :=
  doubleUp n n 8

/-- The record at `pos`: the member and where it ends. -/
def indexedSetRecordKnown (data : Bytes) (pos used start : Nat) : Option (Bytes × Nat) :=
  if used ≤ pos then none
  else do
    let (len, off) ← readSetUvarint data (start + pos)
    -- the difference is unsigned: it says nothing once `off` has passed the records
    if off ≤ start + used ∧ start + used - off < len then none
    else if data.length < off + len then none
    else some (readAt data off len, off + len - start)

def hashField64 (v : Bytes) : UInt64 :=
  v.foldl (fun h b => (h ^^^ b.toUInt64) * 1099511628211) 1469598103934665603

def slotAt (data : Bytes) (slot : Nat) : Nat :=
  getUint (readAt data (indexedSetFixed + slot * 4) 4)

/-- Where the probe loop stopped, and the position of the member if it is there. -/
structure Found where
  slot : Nat
  pos : Option Nat
  deriving DecidableEq, Repr

/-- One pass of the probe loop: `none` goes on, and an error ends the loop as a hit does. -/
def probePass (data target : Bytes) (slots used dataStart probe : Nat) : Option (Option Found) :=
  let slot := ((hashField64 target).toNat &&& (slots - 1)) + probe &&& (slots - 1)
  if slotAt data slot = 0 then some (some ⟨slot, none⟩)
  else
    match indexedSetRecordKnown data (slotAt data slot - 1) used dataStart with
    | none => some none
    | some (member, _) =>
      if member = target then some (some ⟨slot, some (slotAt data slot - 1)⟩) else none

def indexedSetFindKnown (data target : Bytes) (slots used dataStart : Nat) : Option Found :=
  ((List.range slots).findSome? (probePass data target slots used dataStart)).join

def indexedSetFind (data target : Bytes) : Option Found := do
  let t ← indexedSetMeta data
  indexedSetFindKnown data target t.slots t.used t.dataStart

/-! ## Building a table -/

/-- A record behind those in use, and its position in the slot. -/
def putRecord (data : Bytes) (start used slot : Nat) (member : Bytes) : Bytes :=
  writeAt (writeAt data (start + used) (recordBytes member)) (indexedSetFixed + slot * 4)
    (putUint 4 (used + 1))

/-- The loop of `encodeIndexedSet` from `cursor` on. -/
def fillTable (start : Nat) : Bytes → Nat → List Bytes → Option Bytes
  | out, _, [] => some out
  | out, cursor, member :: ms => do
      let found ← indexedSetFind out member
      if found.pos.isSome then none
      else
        let cursor' := cursor + (recordBytes member).length
        fillTable start (writeAt (putRecord out start cursor found.slot member) 11
          (putUint 4 cursor'))
          cursor' ms

/-- The room for records: a quarter more than needed, and at least 512 bytes more. -/
def dataCap (used : Nat) : Nat :=
  if used / 4 < 512 then used + 512 else used + used / 4

def recordsLength (ms : List Bytes) : Nat :=
  (ms.flatMap recordBytes).length

def indexedTotal (ms : List Bytes) : Nat :=
  indexedSetFixed + nextSetPow2 (ms.length * 2) * 4 + dataCap (recordsLength ms)

def encodeIndexedSet (members : List Bytes) : Option Bytes :=
  let sorted := members.insertionSort (· ≤ ·)
  if sorted = [] ∨ ¬ sorted.Pairwise (· ≠ ·) then none
  else
    let slots := nextSetPow2 (sorted.length * 2)
    let total := indexedTotal sorted
    if total > maxPackedSetBytes then none
    else
      let out := indexedSetHeader ++ putUint 4 sorted.length ++ putUint 4 slots ++
        List.replicate (total - 11) 0
      fillTable (indexedSetFixed + slots * 4) out 0 sorted

/-! ## Reading and extending one -/

def slotMembers (data : Bytes) (t : Meta) : List Nat → Option (List Bytes)
  | [] => some []
  | slot :: slots =>
    if slotAt data slot = 0 then slotMembers data t slots
    else do
      let (member, _) ← indexedSetRecordKnown data (slotAt data slot - 1) t.used t.dataStart
      let ms ← slotMembers data t slots
      some (member :: ms)

def decodeIndexedSet (data : Bytes) : Option (List Bytes) := do
  let t ← indexedSetMeta data
  let ms ← slotMembers data t (List.range t.slots)
  if ms.length ≠ t.count then none else some (ms.insertionSort (· ≤ ·))

def indexedSetContains (data target : Bytes) : Option Bool :=
  (indexedSetFind data target).map fun found => found.pos.isSome

/-- The members not seen before, behind those there are; and 1 for each that is new. -/
def appendNew (current : List Bytes) : List Bytes → List Nat × List Bytes
  | [] => ([], current)
  | m :: ms =>
    if m ∈ current then
      let (results, all) := appendNew current ms
      (0 :: results, all)
    else
      let (results, all) := appendNew (current ++ [m]) ms
      (1 :: results, all)

/-- The stored bytes after the loop, which writes in place, and unless it failed the result for
each member and the new table if one was built. -/
structure AddOutcome where
  data : Bytes
  result : Option (List Nat × Option Bytes)
  deriving DecidableEq, Repr

/-- The loop of `indexedSetAddResults`. -/
def addEach (slots start : Nat) : Bytes → Nat → Nat → List Bytes → AddOutcome
  | data, _, _, [] => ⟨data, some ([], none)⟩
  | data, count, used, member :: ms =>
    match indexedSetFindKnown data member slots used start with
    | none => ⟨data, none⟩
    | some found =>
      if found.pos.isSome then
        let o := addEach slots start data count used ms
        ⟨o.data, o.result.map fun r => (0 :: r.1, r.2)⟩
      else if (count + 1) * 10 ≥ slots * 7 ∨
          start + used + (recordBytes member).length > data.length then
        -- a new table for the members there are and all that are still to come
        ⟨data, do
          let current ← decodeIndexedSet data
          let (results, all) := appendNew current (member :: ms)
          let rebuilt ← encodeIndexedSet all
          some (results, some rebuilt)⟩
      else
        let used' := used + (recordBytes member).length
        let data := putRecord data start used found.slot member
        let data := writeAt (writeAt data 3 (putUint 4 (count + 1))) 11 (putUint 4 used')
        let o := addEach slots start data (count + 1) used' ms
        ⟨o.data, o.result.map fun r => (1 :: r.1, r.2)⟩

def indexedSetAddResults (data : Bytes) (members : List Bytes) : AddOutcome :=
  match indexedSetMeta data with
  | none => ⟨data, none⟩
  | some t => addEach t.slots t.dataStart data t.count t.used members

/-! ## The table as cells -/

/-- What a slot holds for a cell. -/
def rawOf : Cell Bytes Nat → Nat
  | .live _ pos => pos + 1
  | _ => 0

def hashStart (slots : Nat) (m : Bytes) : Nat :=
  (hashField64 m).toNat &&& (slots - 1)

/-- The bytes hold the cells, each with the position of its record. -/
structure Table (data : Bytes) (count used : Nat) (cells : List (Cell Bytes Nat)) : Prop where
  header : HasAt data 0 indexedSetHeader
  countAt : HasAt data 3 (putUint 4 count)
  slotsAt : HasAt data 7 (putUint 4 cells.length)
  usedAt : HasAt data 11 (putUint 4 used)
  room : indexedSetFixed + cells.length * 4 + used ≤ data.length
  small : data.length ≤ maxPackedSetBytes
  pow : ∃ k, cells.length = 2 ^ (k + 3)
  count_le : count ≤ cells.length
  slot : ∀ (i : Nat) c, cells[i]? = some c →
    HasAt data (indexedSetFixed + i * 4) (putUint 4 (rawOf c))
  record : ∀ (i : Nat) m pos, cells[i]? = some (.live m pos) →
    HasAt data (indexedSetFixed + cells.length * 4 + pos) (recordBytes m) ∧
      pos + (recordBytes m).length ≤ used
  kept : ∀ i : Nat, cells[i]? ≠ some .deleted
  probed : WellProbed (hashStart cells.length) cells

namespace Table

variable {data : Bytes} {count used : Nat} {cells : List (Cell Bytes Nat)}

section

variable (h : Table data count used cells)

include h

theorem slots_pos : 8 ≤ cells.length := by
  obtain ⟨k, hk⟩ := h.pow
  rw [hk, pow_add]
  have := Nat.one_le_two_pow (n := k)
  omega

theorem and_mask (n : Nat) : n &&& (cells.length - 1) = n % cells.length := by
  obtain ⟨k, hk⟩ := h.pow
  rw [hk, Nat.and_two_pow_sub_one_eq_mod]

theorem isIndexedSet : isIndexedSet data = true := by
  have hheader := h.header.readAt
  have hroom := h.room
  have htake : data.take 3 = indexedSetHeader := by simpa [readAt, indexedSetHeader] using hheader
  have hlen : indexedSetFixed ≤ data.length := by omega
  simp [Sets.isIndexedSet, htake, hlen]

end

theorem getUint_of_hasAt {p n : Nat} (h : HasAt data p (putUint 4 n)) (hn : n < 2 ^ 32) :
    getUint (readAt data p 4) = n := by
  have hread := h.readAt
  rw [length_putUint] at hread
  rw [hread, getUint_putUint_of_lt (by simpa using hn)]

section

variable (h : Table data count used cells) {i : Nat}

include h

theorem indexedSetMeta_eq :
    indexedSetMeta data = some ⟨count, cells.length, used, indexedSetFixed + cells.length * 4⟩ := by
  have hroom := h.room
  have hsmall := h.small
  have hmax : maxPackedSetBytes < 2 ^ 32 := by decide
  have hcount := h.count_le
  have hmask : cells.length &&& (cells.length - 1) = 0 := by rw [h.and_mask, Nat.mod_self]
  have hpos := h.slots_pos
  rw [indexedSetMeta, if_neg (by simp [h.isIndexedSet])]
  simp only [getUint_of_hasAt h.countAt (by omega), getUint_of_hasAt h.slotsAt (by omega),
    getUint_of_hasAt h.usedAt (by omega)]
  rw [if_neg (by omega), if_neg (by omega)]

theorem rawOf_lt {c : Cell Bytes Nat} (hc : cells[i]? = some c) : rawOf c < 2 ^ 32 := by
  have hroom := h.room
  have hsmall := h.small
  have hmax : maxPackedSetBytes < 2 ^ 32 := by decide
  cases c with
  | live m pos =>
    have hrecord := (h.record i m pos hc).2
    simp only [rawOf, recordBytes, length_append] at hrecord ⊢
    have := length_putUvarint_pos m.length
    omega
  | empty => simp [rawOf]
  | deleted => simp [rawOf]

theorem slotAt_eq {c : Cell Bytes Nat} (hc : cells[i]? = some c) : slotAt data i = rawOf c :=
  getUint_of_hasAt (h.slot i c hc) (h.rawOf_lt hc)

theorem indexedSetRecordKnown_eq {pos : Nat} {m : Bytes} (hc : cells[i]? = some (.live m pos)) :
    indexedSetRecordKnown data pos used (indexedSetFixed + cells.length * 4) =
      some (m, pos + (recordBytes m).length) := by
  have hroom := h.room
  have hsize : data.length < 2 ^ 64 := lt_of_le_of_lt h.small (by decide)
  obtain ⟨hat, hend⟩ := h.record i m pos hc
  have hat' : HasAt data (indexedSetFixed + cells.length * 4 + pos) (recordBytes m ++ []) := by
    simpa using hat
  obtain ⟨p, hread, hfit, hmember, -, hnext⟩ := record_of_hasAt hsize hat'
  have hlen : 0 < (recordBytes m).length := by
    have := length_putUvarint_pos m.length
    simp only [recordBytes, length_append]
    omega
  rw [indexedSetRecordKnown, if_neg (by omega), hread, some_bind]
  simp only
  rw [if_neg (by omega), if_neg (by omega), hmember]
  congr 2
  omega

/-- One pass of the probe loop, in terms of the cell it looks at. -/
theorem probePass_eq (m : Bytes) (probe : Nat) :
    probePass data m cells.length used (indexedSetFixed + cells.length * 4) probe =
      match cells[(hashStart cells.length m + probe) % cells.length]? with
      | some (.live m' pos) =>
        if m' = m then some (some ⟨(hashStart cells.length m + probe) % cells.length, some pos⟩)
        else none
      | _ => some (some ⟨(hashStart cells.length m + probe) % cells.length, none⟩) := by
  have hpos := h.slots_pos
  have hlt : (hashStart cells.length m + probe) % cells.length < cells.length :=
    Nat.mod_lt _ (by omega)
  have hslot : (((hashField64 m).toNat &&& (cells.length - 1)) + probe &&& (cells.length - 1)) =
      (hashStart cells.length m + probe) % cells.length := by
    rw [h.and_mask, hashStart]
  simp only [probePass, hslot]
  cases hcell : cells[(hashStart cells.length m + probe) % cells.length]? with
  | none => exact absurd (getElem?_eq_none_iff.1 hcell) (by omega)
  | some c =>
    rw [h.slotAt_eq hcell]
    cases c with
    | empty => simp [rawOf]
    | deleted => exact absurd hcell (h.kept _)
    | live m' pos => simp [rawOf, h.indexedSetRecordKnown_eq hcell]

/-- The probe loop stops at the member, or at the slot a new one goes to. -/
theorem indexedSetFindKnown_spec (hfree : (entries cells).length < cells.length) (m : Bytes) :
    (∃ slot pos, indexedSetFindKnown data m cells.length used
        (indexedSetFixed + cells.length * 4) = some ⟨slot, some pos⟩ ∧
      cells[slot]? = some (.live m pos)) ∨
    (∃ slot, indexedSetFindKnown data m cells.length used
        (indexedSetFixed + cells.length * 4) = some ⟨slot, none⟩ ∧
      cells[slot]? = some .empty ∧ Reached cells (hashStart cells.length m) slot ∧
      ∀ (i : Nat) pos, cells[i]? ≠ some (.live m pos)) := by
  obtain ⟨i, hempty⟩ := exists_empty h.kept hfree
  obtain ⟨d, hd, hdi⟩ := exists_probe (h.probed.start_lt m) (List.getElem?_eq_some_iff.1 hempty).1
  obtain ⟨e, he, hfind, hne, hbefore⟩ := findSome?_range hd
    (show probePass data m cells.length used _ d ≠ none by rw [h.probePass_eq, hdi, hempty]; simp)
  have hpassed : ∀ j < e, ∃ m' pos,
      cells[(hashStart cells.length m + j) % cells.length]? = some (.live m' pos) ∧ m' ≠ m := by
    intro j hj
    have hj := hbefore j hj
    rw [h.probePass_eq] at hj
    split at hj
    · next m' pos hcell =>
        split_ifs at hj with hm
        exact ⟨m', pos, hcell, hm⟩
    · cases hj
  obtain ⟨hreached, habsent⟩ := h.probed.stop he hpassed
  rw [h.probePass_eq] at hfind hne
  simp only [indexedSetFindKnown, hfind]
  cases hcell : cells[(hashStart cells.length m + e) % cells.length]? with
  | none =>
    exact absurd (getElem?_eq_none_iff.1 hcell) (not_le.2 (Nat.mod_lt _ (by omega)))
  | some c =>
    cases c with
    | empty => exact .inr ⟨_, rfl, hcell, hreached, habsent hcell⟩
    | deleted => exact absurd hcell (h.kept _)
    | live m' pos =>
      by_cases hm : m' = m
      · subst hm
        exact .inl ⟨_, pos, by simp, hcell⟩
      · exact absurd (by simp [hcell, hm]) hne

theorem indexedSetFind_eq (m : Bytes) :
    indexedSetFind data m =
      indexedSetFindKnown data m cells.length used (indexedSetFixed + cells.length * 4) := by
  rw [indexedSetFind, h.indexedSetMeta_eq]
  rfl

end

def setCounters (data : Bytes) (count used : Nat) : Bytes :=
  writeAt (writeAt data 3 (putUint 4 count)) 11 (putUint 4 used)

section Put

variable {slot : Nat} {m : Bytes}

theorem length_putRecord (hslot : slot < cells.length)
    (hfit : indexedSetFixed + cells.length * 4 + used + (recordBytes m).length ≤ data.length) :
    (putRecord data (indexedSetFixed + cells.length * 4) used slot m).length = data.length := by
  have hfirst := length_writeAt hfit
  rw [putRecord, length_writeAt (by rw [length_putUint, hfirst]; omega), hfirst]

theorem length_setCounters (n k : Nat) (hlen : indexedSetFixed ≤ data.length) :
    (setCounters data n k).length = data.length := by
  have hfix : indexedSetFixed = 15 := rfl
  have hfirst : 3 + (putUint 4 n).length ≤ data.length := by
    rw [length_putUint]
    omega
  rw [setCounters, length_writeAt (by rw [length_putUint, length_writeAt hfirst]; omega),
    length_writeAt hfirst]

/-- What stands neither where the record goes nor in the slot nor in the counters stays. -/
theorem frame_put (hslot : slot < cells.length)
    (hfit : indexedSetFixed + cells.length * 4 + used + (recordBytes m).length ≤ data.length)
    {q : Nat} {bs : Bytes} (hq : HasAt data q bs)
    (hrecord : q + bs.length ≤ indexedSetFixed + cells.length * 4 + used)
    (hslots : q + bs.length ≤ indexedSetFixed + slot * 4 ∨ indexedSetFixed + slot * 4 + 4 ≤ q) :
    HasAt (putRecord data (indexedSetFixed + cells.length * 4) used slot m) q bs := by
  have hfirst := length_writeAt hfit
  refine (hq.writeAt_of_disjoint hfit (.inl hrecord)).writeAt_of_disjoint ?_ ?_
  · rw [length_putUint, hfirst]
    omega
  · rwa [length_putUint]

theorem frame_setCounters {n k q : Nat} {bs : Bytes} (hlen : indexedSetFixed ≤ data.length)
    (hq : HasAt data q bs) (hcount : q + bs.length ≤ 3 ∨ 7 ≤ q)
    (hused : q + bs.length ≤ 11 ∨ indexedSetFixed ≤ q) : HasAt (setCounters data n k) q bs := by
  have hfix : indexedSetFixed = 15 := rfl
  have hfirst : 3 + (putUint 4 n).length ≤ data.length := by
    rw [length_putUint]
    omega
  refine (hq.writeAt_of_disjoint hfirst ?_).writeAt_of_disjoint ?_ ?_
  · rwa [length_putUint]
  · rw [length_putUint, length_writeAt hfirst]
    omega
  · rwa [length_putUint]

/-- A new member: its record, its slot and the counters. -/
theorem put (h : Table data count used cells) {n : Nat} (hn : n ≤ cells.length)
    (hempty : cells[slot]? = some .empty) (hreached : Reached cells (hashStart cells.length m) slot)
    (habsent : ∀ (i : Nat) pos, cells[i]? ≠ some (.live m pos))
    (hfit : indexedSetFixed + cells.length * 4 + used + (recordBytes m).length ≤ data.length) :
    Table (setCounters (putRecord data (indexedSetFixed + cells.length * 4) used slot m) n
      (used + (recordBytes m).length)) n (used + (recordBytes m).length)
      (cells.set slot (.live m used)) := by
  have hslot : slot < cells.length := (List.getElem?_eq_some_iff.1 hempty).1
  have hfix : indexedSetFixed = 15 := rfl
  have hput := length_putRecord hslot hfit
  have hlen : indexedSetFixed ≤
      (putRecord data (indexedSetFixed + cells.length * 4) used slot m).length := by
    omega
  have hlength := (length_setCounters n (used + (recordBytes m).length) hlen).trans hput
  have hcount : 3 + (putUint 4 n).length ≤
      (putRecord data (indexedSetFixed + cells.length * 4) used slot m).length := by
    rw [length_putUint]
    omega
  have hused : 11 + (putUint 4 (used + (recordBytes m).length)).length ≤
      (writeAt (putRecord data (indexedSetFixed + cells.length * 4) used slot m) 3
        (putUint 4 n)).length := by
    rw [length_putUint, length_writeAt hcount]
    omega
  have hfirst := length_writeAt hfit
  refine
    { header := ?header, countAt := ?countAt, slotsAt := ?slotsAt,
      usedAt := HasAt.writeAt_self hused, room := ?room, small := ?small, pow := ?pow,
      count_le := ?count_le, slot := ?slot, record := ?record, kept := ?kept, probed := ?probed }
  case header =>
    have hl : (indexedSetHeader).length = 3 := rfl
    exact frame_setCounters hlen (frame_put hslot hfit h.header (by omega) (by omega)) (by omega)
      (by omega)
  case countAt =>
    refine (HasAt.writeAt_self hcount).writeAt_of_disjoint hused (.inl ?_)
    rw [length_putUint]
    omega
  case slotsAt =>
    have hl := length_putUint 4 cells.length
    rw [length_set]
    exact frame_setCounters hlen (frame_put hslot hfit h.slotsAt (by omega) (by omega)) (by omega)
      (by omega)
  case room =>
    rw [length_set, hlength]
    omega
  case small =>
    rw [hlength]
    exact h.small
  case pow =>
    rw [length_set]
    exact h.pow
  case count_le =>
    rwa [length_set]
  case slot =>
    intro i c hc
    by_cases hi : slot = i
    · -- the slot just written
      subst hi
      rw [getElem?_set_self hslot] at hc
      cases hc
      have hl := length_putUint 4 (used + 1)
      refine frame_setCounters hlen (HasAt.writeAt_self ?_) (by omega) (by omega)
      omega
    · rw [List.getElem?_set_ne hi] at hc
      have hic : i < cells.length := (List.getElem?_eq_some_iff.1 hc).1
      have hl := length_putUint 4 (rawOf c)
      exact frame_setCounters hlen (frame_put hslot hfit (h.slot i c hc) (by omega) (by omega))
        (by omega) (by omega)
  case record =>
    intro i m' pos hc
    rw [length_set]
    by_cases hi : slot = i
    · subst hi
      rw [getElem?_set_self hslot] at hc
      cases hc
      refine ⟨frame_setCounters hlen ?_ (by omega) (by omega), le_rfl⟩
      refine (HasAt.writeAt_self hfit).writeAt_of_disjoint ?_ (.inr ?_)
      · rw [length_putUint, hfirst]
        omega
      · rw [length_putUint]
        omega
    · rw [getElem?_set_ne hi] at hc
      obtain ⟨hat, hend⟩ := h.record i m' pos hc
      exact ⟨frame_setCounters hlen (frame_put hslot hfit hat (by omega) (by omega)) (by omega)
        (by omega), by omega⟩
  case kept =>
    intro i hi
    by_cases his : slot = i
    · subst his
      rw [getElem?_set_self hslot] at hi
      cases hi
    · rw [getElem?_set_ne his] at hi
      exact h.kept i hi
  case probed =>
    rw [length_set]
    exact h.probed.place used hreached habsent

end Put

theorem take (h : Table data count used cells) :
    Table (data.take (indexedSetFixed + cells.length * 4 + used)) count used cells where
  header := h.header.take
    (by rw [show (indexedSetHeader).length = 3 from rfl, indexedSetFixed]; omega)
  countAt := h.countAt.take (by rw [length_putUint, indexedSetFixed]; omega)
  slotsAt := h.slotsAt.take (by rw [length_putUint, indexedSetFixed]; omega)
  usedAt := h.usedAt.take (by rw [length_putUint, indexedSetFixed]; omega)
  room := by
    have := h.room
    rw [length_take]
    omega
  small := by
    have := h.small
    rw [length_take]
    omega
  pow := h.pow
  count_le := h.count_le
  slot := by
    intro i c hc
    have hi : i < cells.length := (List.getElem?_eq_some_iff.1 hc).1
    exact (h.slot i c hc).take (by rw [length_putUint]; omega)
  record := by
    intro i m pos hc
    obtain ⟨hat, hend⟩ := h.record i m pos hc
    exact ⟨hat.take (by omega), hend⟩
  kept := h.kept
  probed := h.probed

end Table

/-! ## Building a table and reading it back -/

def keys (cells : List (Cell Bytes Nat)) : List Bytes :=
  (entries cells).map Prod.fst

@[simp] theorem length_keys (cells : List (Cell Bytes Nat)) :
    (keys cells).length = (entries cells).length := length_map ..

variable {cells : List (Cell Bytes Nat)} {ms : List Bytes}

theorem keys_place {slot : Nat} (h : cells[slot]? = some .empty) (m : Bytes) (pos : Nat) :
    (keys (cells.set slot (.live m pos))).Perm (m :: keys cells) :=
  (entries_place (.inl h) m pos).map Prod.fst

theorem mem_keys {m : Bytes} :
    m ∈ keys cells ↔ ∃ (i : Nat) (pos : Nat), cells[i]? = some (.live m pos) := by
  simp only [keys, mem_map, Prod.exists, exists_and_right, exists_eq_right]
  constructor
  · rintro ⟨pos, hmem⟩
    obtain ⟨i, hi⟩ := mem_entries.1 hmem
    exact ⟨i, pos, hi⟩
  · rintro ⟨i, pos, hi⟩
    exact ⟨pos, mem_entries.2 ⟨i, hi⟩⟩

theorem doubleUp_spec {n : Nat} (fuel k : Nat) (hfuel : n ≤ fuel + 2 ^ (k + 3)) :
    ∃ j, doubleUp n fuel (2 ^ (k + 3)) = 2 ^ (j + 3) ∧ n ≤ 2 ^ (j + 3) := by
  induction fuel generalizing k with
  | zero => exact ⟨k, rfl, by omega⟩
  | succ fuel ih =>
    rw [doubleUp]
    by_cases hlt : 2 ^ (k + 3) < n
    · have hdouble : 2 * 2 ^ (k + 3) = 2 ^ (k + 1 + 3) := by ring
      have hpos := Nat.two_pow_pos (k + 3)
      rw [if_pos hlt, hdouble]
      exact ih (k + 1) (by omega)
    · rw [if_neg hlt]
      exact ⟨k, rfl, by omega⟩

theorem nextSetPow2_spec (n : Nat) : ∃ k, nextSetPow2 n = 2 ^ (k + 3) ∧ n ≤ nextSetPow2 n := by
  obtain ⟨j, hj, hle⟩ := @doubleUp_spec n n 0 (by omega)
  refine ⟨j, hj, ?_⟩
  rw [show nextSetPow2 n = 2 ^ (j + 3) from hj]
  exact hle

theorem recordsLength_cons (m : Bytes) (ms : List Bytes) :
    recordsLength (m :: ms) = (recordBytes m).length + recordsLength ms := by
  simp [recordsLength]

variable {c ms' : List Bytes} {data : Bytes} {used : Nat}

theorem recordsLength_perm (h : ms.Perm ms') : recordsLength ms = recordsLength ms' := by
  simp only [recordsLength, length_flatMap]
  exact (h.map _).sum_eq

/-- Members in ascending order, in a table with room for one more. -/
structure Indexed (data : Bytes) (ms : List Bytes) : Prop where
  sorted : ms.Pairwise (· < ·)
  table : ∃ used cells, Table data ms.length used cells ∧ (keys cells).Perm ms ∧
    ms.length < cells.length

theorem fillTable_spec {out : Bytes} {count cursor : Nat} (h : Table out count cursor cells)
    (hnew : (keys cells ++ ms).Nodup)
    (hroom : indexedSetFixed + cells.length * 4 + cursor + recordsLength ms ≤ out.length)
    (hfree : (keys cells).length + ms.length < cells.length) :
    ∃ data cells', fillTable (indexedSetFixed + cells.length * 4) out cursor ms = some data ∧
      Table data count (cursor + recordsLength ms) cells' ∧ cells'.length = cells.length ∧
      (keys cells').Perm (keys cells ++ ms) := by
  induction ms generalizing out cursor cells with
  | nil => exact ⟨out, cells, rfl, by simpa [recordsLength] using h, rfl, by simp⟩
  | cons m ms ih =>
    rw [recordsLength_cons] at hroom
    rw [length_cons] at hfree
    have habsent : m ∉ keys cells := by
      intro hmem
      exact (nodup_append.1 hnew).2.2 m hmem m (mem_cons_self ..) rfl
    have hfit : indexedSetFixed + cells.length * 4 + cursor + (recordBytes m).length ≤
        out.length := by omega
    have hroom' : (entries cells).length < cells.length := by
      rw [← length_keys]
      omega
    rcases h.indexedSetFindKnown_spec hroom' m with
      ⟨slot, pos, -, hlive⟩ | ⟨slot, hfind, hempty, hreached, hnot⟩
    · exact absurd (mem_keys.2 ⟨slot, pos, hlive⟩) habsent
    · have hslot : slot < cells.length := (List.getElem?_eq_some_iff.1 hempty).1
      have hput := h.put h.count_le hempty hreached hnot hfit
      -- the number of members stands there from the start
      have hcount : Table.setCounters (putRecord out (indexedSetFixed + cells.length * 4) cursor
          slot m) count (cursor + (recordBytes m).length) =
          writeAt (putRecord out (indexedSetFixed + cells.length * 4) cursor slot m) 11
            (putUint 4 (cursor + (recordBytes m).length)) := by
        have hfix : indexedSetFixed = 15 := rfl
        have hl := length_putUint 4 count
        rw [Table.setCounters, (Table.frame_put hslot hfit h.countAt (by omega)
          (by omega)).writeAt_eq]
      have hplaced := keys_place hempty m cursor
      have hlength := Table.length_putRecord hslot hfit
      have hlen := (Table.length_setCounters count (cursor + (recordBytes m).length)
        (by rw [hlength]; omega)).trans hlength
      obtain ⟨data, cells', hfill, htable, hsize, hperm⟩ := ih hput
        (by
          refine (List.Perm.nodup_iff ?_).1 hnew
          exact (perm_middle.trans (hplaced.symm.append_right ms)))
        (by rw [length_set, hlen]; omega)
        (by rw [hplaced.length_eq, length_set, length_cons]; omega)
      rw [length_set] at hfill hsize
      refine ⟨data, cells', ?_, ?_, hsize, ?_⟩
      · rw [fillTable, h.indexedSetFind_eq, hfind, some_bind]
        simpa [← hcount] using hfill
      · rw [recordsLength_cons, ← Nat.add_assoc]
        exact htable
      · exact hperm.trans ((hplaced.append_right ms).trans perm_middle.symm)

theorem hasAt_zeros {front : Bytes} {n q k : Nat} (hfront : front.length ≤ q)
    (hk : q + k ≤ front.length + n) :
    HasAt (front ++ replicate n 0) q (replicate k (0 : UInt8)) := by
  refine ⟨front ++ replicate (q - front.length) 0,
    replicate (front.length + n - (q + k)) 0, ?_, by simp; omega⟩
  rw [append_assoc, replicate_append_replicate, replicate_append_replicate]
  congr 2
  omega

theorem table_empty {count n k : Nat} (hcount : count ≤ 2 ^ (k + 3))
    (hroom : indexedSetFixed + 2 ^ (k + 3) * 4 ≤ 11 + n) (hsmall : 11 + n ≤ maxPackedSetBytes) :
    Table (indexedSetHeader ++ putUint 4 count ++ putUint 4 (2 ^ (k + 3)) ++ replicate n 0)
      count 0 (replicate (2 ^ (k + 3)) .empty) := by
  have hfix : indexedSetFixed = 15 := rfl
  have hlen : (indexedSetHeader ++ putUint 4 count ++ putUint 4 (2 ^ (k + 3))).length = 11 := by
    simp [indexedSetHeader]
  have hfields : HasAt (indexedSetHeader ++ putUint 4 count ++ putUint 4 (2 ^ (k + 3)) ++
      replicate n 0) 0
      (indexedSetHeader ++ (putUint 4 count ++ putUint 4 (2 ^ (k + 3)))) :=
    ⟨[], replicate n 0, by simp, rfl⟩
  obtain ⟨hheader, hfields⟩ := hasAt_append.1 hfields
  obtain ⟨hcountAt, hslotsAt⟩ := hasAt_append.1 hfields
  have hzero (q : Nat) (hq : 11 ≤ q) (hend : q + 4 ≤ 11 + n) :
      HasAt (indexedSetHeader ++ putUint 4 count ++ putUint 4 (2 ^ (k + 3)) ++
        replicate n 0) q (putUint 4 0) :=
    hasAt_zeros (k := 4) (by omega) (by omega)
  refine
    { header := hheader, countAt := hcountAt, slotsAt := ?slotsAt,
      usedAt := hzero 11 le_rfl (by omega), room := ?room, small := ?small,
      pow := ⟨k, length_replicate ..⟩, count_le := ?count_le, slot := ?slot,
      record := ?record, kept := ?kept, probed := ?probed }
  case slotsAt =>
    simpa [indexedSetHeader] using hslotsAt
  case room =>
    rw [length_append, hlen, length_replicate, length_replicate]
    omega
  case small =>
    rw [length_append, hlen, length_replicate]
    exact hsmall
  case count_le => rwa [length_replicate]
  case slot =>
    intro i c hc
    rw [getElem?_replicate] at hc
    split_ifs at hc with hi
    cases hc
    exact hzero _ (by omega) (by omega)
  case record =>
    intro i m pos hc
    simp [getElem?_replicate] at hc
  case kept =>
    intro i hc
    simp [getElem?_replicate] at hc
  case probed =>
    refine WellProbed.replicate_empty fun m => ?_
    rw [length_replicate, hashStart, Nat.and_two_pow_sub_one_eq_mod]
    exact Nat.mod_lt _ (Nat.two_pow_pos _)

theorem keys_replicate (n : Nat) : keys (replicate n .empty) = [] := by
  simp [keys, entries, Cell.entry]

theorem pairwise_lt_insertionSort (h : ms.Nodup) : (ms.insertionSort (· ≤ ·)).Pairwise (· < ·) := by
  have hnodup := (perm_insertionSort (· ≤ ·) ms).nodup_iff.2 h
  have hsorted := pairwise_insertionSort (· ≤ ·) ms
  exact (hsorted.and hnodup).imp fun ⟨hle, hne⟩ => lt_of_le_of_ne hle hne

theorem encodeIndexedSet_spec (hne : ms ≠ []) (hnodup : ms.Nodup)
    (hfits : indexedTotal (ms.insertionSort (· ≤ ·)) ≤ maxPackedSetBytes) :
    ∃ data, encodeIndexedSet ms = some data ∧ Indexed data (ms.insertionSort (· ≤ ·)) := by
  have hsorted := pairwise_lt_insertionSort hnodup
  have hsort : ms.insertionSort (· ≤ ·) ≠ [] := by
    intro hnil
    refine hne (length_eq_zero_iff.1 ?_)
    rw [← length_insertionSort (· ≤ ·) ms, hnil]
    rfl
  unfold encodeIndexedSet
  set sorted := ms.insertionSort (· ≤ ·)
  obtain ⟨k, hk, hle⟩ := nextSetPow2_spec (sorted.length * 2)
  have hpos : 0 < sorted.length := length_pos_of_ne_nil hsort
  have hcap : recordsLength sorted ≤ dataCap (recordsLength sorted) := by
    unfold dataCap
    split_ifs <;> omega
  have hfix : indexedSetFixed = 15 := rfl
  have htotal : indexedTotal sorted =
      indexedSetFixed + 2 ^ (k + 3) * 4 + dataCap (recordsLength sorted) := by
    rw [indexedTotal, hk]
  have hempty := @table_empty sorted.length (indexedTotal sorted - 11) k (by omega) (by omega)
    (by omega)
  have hslots : (replicate (2 ^ (k + 3)) (Cell.empty : Cell Bytes Nat)).length =
      2 ^ (k + 3) := length_replicate ..
  obtain ⟨data, cells, hfill, htable, hsize, hperm⟩ := @fillTable_spec _ sorted _ _ _ hempty
    (by rw [keys_replicate]; exact hsorted.imp fun hlt => hlt.ne)
    (by
      simp only [length_append, length_putUint, length_replicate, indexedSetHeader,
        length_cons, length_nil]
      omega)
    (by rw [keys_replicate, hslots, length_nil]; omega)
  rw [hslots] at hfill hsize
  refine ⟨data, ?_, hsorted, ⟨_, cells, htable, ?_, by omega⟩⟩
  · rw [if_neg (by simp [hsort, hsorted.imp fun hlt => hlt.ne]), if_neg (by omega), hk]
    exact hfill
  · simpa [keys_replicate] using hperm

theorem slotMembers_eq {count : Nat} {rest : List (Cell Bytes Nat)}
    (h : Table data count used cells) {n : Nat} (hrest : cells.drop n = rest) :
    slotMembers data ⟨count, cells.length, used, indexedSetFixed + cells.length * 4⟩
      (range' n rest.length) = some (keys rest) := by
  induction rest generalizing n with
  | nil => rfl
  | cons c rest ih =>
    have hc : cells[n]? = some c := by
      rw [← add_zero n, ← getElem?_drop, hrest]
      rfl
    have htail := ih (n := n + 1) (by rw [← drop_drop, hrest]; rfl)
    rw [length_cons, range'_succ, slotMembers, h.slotAt_eq hc]
    cases c with
    | empty => simpa [rawOf, keys, entries_cons, Cell.entry] using htail
    | deleted => exact absurd hc (h.kept n)
    | live m pos =>
      simp [rawOf, h.indexedSetRecordKnown_eq hc, htail, keys, entries_cons, Cell.entry]

theorem insertionSort_eq_of_perm (hperm : ms.Perm ms')
    (hsorted : ms'.Pairwise (· < ·)) : ms.insertionSort (· ≤ ·) = ms' :=
  ((perm_insertionSort (· ≤ ·) ms).trans hperm).eq_of_pairwise'
    (pairwise_insertionSort (· ≤ ·) ms) (hsorted.imp le_of_lt)

theorem Table.decodeIndexedSet_eq (h : Table data (entries cells).length used cells) :
    decodeIndexedSet data = some ((keys cells).insertionSort (· ≤ ·)) := by
  have hmembers := slotMembers_eq h (n := 0) drop_zero
  rw [← range_eq_range'] at hmembers
  simp [decodeIndexedSet, h.indexedSetMeta_eq, hmembers]

namespace Indexed

variable {data : Bytes} {ms : List Bytes}

section

variable (h : Indexed data ms)

include h

theorem isIndexedSet : isIndexedSet data = true := by
  obtain ⟨used, cells, htable, -, -⟩ := h.table
  exact htable.isIndexedSet

theorem decodeIndexedSet : decodeIndexedSet data = some ms := by
  obtain ⟨used, cells, htable, hperm, -⟩ := h.table
  have hlen : ms.length = (entries cells).length := by rw [← hperm.length_eq, length_keys]
  rw [hlen] at htable
  rw [htable.decodeIndexedSet_eq, insertionSort_eq_of_perm hperm h.sorted]

theorem indexedSetMeta : ∃ t, indexedSetMeta data = some t ∧ t.count = ms.length := by
  obtain ⟨used, cells, htable, -, -⟩ := h.table
  exact ⟨_, htable.indexedSetMeta_eq, rfl⟩

theorem indexedSetContains (target : Bytes) :
    indexedSetContains data target = some (decide (target ∈ ms)) := by
  obtain ⟨used, cells, htable, hperm, hroom⟩ := h.table
  have hfree : (entries cells).length < cells.length := by
    rw [← length_keys, hperm.length_eq]
    exact hroom
  rw [Sets.indexedSetContains, htable.indexedSetFind_eq]
  rcases htable.indexedSetFindKnown_spec hfree target with
    ⟨slot, pos, hfind, hlive⟩ | ⟨slot, hfind, -, -, habsent⟩
  · have hmem : target ∈ ms := hperm.mem_iff.1 (mem_keys.2 ⟨slot, pos, hlive⟩)
    simp [hfind, hmem]
  · have hnot : target ∉ ms := by
      intro hmem
      obtain ⟨i, pos, hi⟩ := mem_keys.1 (hperm.mem_iff.2 hmem)
      exact habsent i pos hi
    simp [hfind, hnot]

end

end Indexed

/-! ## Adding members -/

theorem appendNew_perm {c' : List Bytes} (h : c.Perm c') (ms : List Bytes) :
    (appendNew c ms).1 = (appendNew c' ms).1 ∧ (appendNew c ms).2.Perm (appendNew c' ms).2 := by
  induction ms generalizing c c' with
  | nil => exact ⟨rfl, h⟩
  | cons m ms ih =>
    simp only [appendNew, h.mem_iff]
    by_cases hm : m ∈ c'
    · simp only [hm, if_true]
      exact ⟨by rw [(ih h).1], (ih h).2⟩
    · simp only [hm, if_false]
      have := ih (h.append_right [m])
      exact ⟨by rw [this.1], this.2⟩

theorem nodup_appendNew (h : c.Nodup) (ms : List Bytes) : (appendNew c ms).2.Nodup := by
  induction ms generalizing c with
  | nil => exact h
  | cons m ms ih =>
    simp only [appendNew]
    by_cases hm : m ∈ c
    · simpa only [hm, if_true] using ih h
    · simp only [hm, if_false]
      refine ih (nodup_append.2 ⟨h, nodup_singleton m, ?_⟩)
      rintro a ha b hb rfl
      exact hm (mem_singleton.1 hb ▸ ha)

theorem mem_appendNew {x : Bytes} : x ∈ (appendNew c ms).2 ↔ x ∈ c ∨ x ∈ ms := by
  induction ms generalizing c with
  | nil => simp [appendNew]
  | cons m ms ih =>
    simp only [appendNew]
    by_cases hm : m ∈ c
    · simp only [hm, if_true, ih, mem_cons]
      constructor
      · tauto
      · rintro (h | rfl | h) <;> tauto
    · simp only [hm, if_false, ih, mem_append, mem_cons, not_mem_nil, or_false]
      tauto

/-- The loop of `indexedSetAddResults`: what it leaves, in place or newly built, holds all members,
and each result says whether its member was new. -/
theorem addEach_spec (h : Table data (entries cells).length used cells)
    (hfree : (entries cells).length < cells.length)
    (hfits : (∃ m ∈ ms, m ∉ keys cells) →
      indexedTotal ((appendNew (keys cells) ms).2.insertionSort (· ≤ ·)) ≤ maxPackedSetBytes) :
    ∃ rebuilt, (addEach cells.length (indexedSetFixed + cells.length * 4) data
        (entries cells).length used ms).result =
        some ((appendNew (keys cells) ms).1, rebuilt) ∧
      Indexed (rebuilt.getD (addEach cells.length (indexedSetFixed + cells.length * 4) data
        (entries cells).length used ms).data)
        ((appendNew (keys cells) ms).2.insertionSort (· ≤ ·)) := by
  have hnodup : (keys cells).Nodup := h.probed.keys_nodup
  induction ms generalizing data used cells with
  | nil =>
    refine ⟨none, rfl, pairwise_lt_insertionSort hnodup, used, cells, ?_,
      (perm_insertionSort (· ≤ ·) _).symm, ?_⟩
    · simpa [addEach, appendNew] using h
    · simpa [appendNew] using hfree
  | cons m ms ih =>
    rcases h.indexedSetFindKnown_spec hfree m with
      ⟨slot, pos, hfind, hlive⟩ | ⟨slot, hfind, hempty, hreached, hnot⟩
    · have hmem : m ∈ keys cells := mem_keys.2 ⟨slot, pos, hlive⟩
      simp only [appendNew, hmem, if_true] at hfits ⊢
      replace hfits := fun hnew : ∃ x ∈ ms, x ∉ keys cells =>
        hfits (hnew.imp fun x hx => ⟨.tail m hx.1, hx.2⟩)
      obtain ⟨rebuilt, hresult, hindexed⟩ := ih h hfree hfits hnodup
      refine ⟨rebuilt, ?_, ?_⟩
      · simp only [addEach, hfind, Option.isSome_some, if_true, hresult, Option.map_some]
      · simpa only [addEach, hfind, Option.isSome_some, if_true] using hindexed
    · have hmem : m ∉ keys cells := by
        intro hmem
        obtain ⟨i, pos, hi⟩ := mem_keys.1 hmem
        exact hnot i pos hi
      replace hfits := hfits ⟨m, mem_cons_self .., hmem⟩
      by_cases hbuild : ((entries cells).length + 1) * 10 ≥ cells.length * 7 ∨
          indexedSetFixed + cells.length * 4 + used + (recordBytes m).length > data.length
      · -- a new table, from the members there are
        have hperm := appendNew_perm (perm_insertionSort (· ≤ ·) (keys cells)) (m :: ms)
        have hsort := insertionSort_eq_of_perm
          (hperm.2.trans (perm_insertionSort (· ≤ ·) _).symm)
          (pairwise_lt_insertionSort (nodup_appendNew hnodup (m :: ms)))
        have hall : (appendNew ((keys cells).insertionSort (· ≤ ·)) (m :: ms)).2.Nodup :=
          hperm.2.nodup_iff.2 (nodup_appendNew hnodup (m :: ms))
        have hne : (appendNew ((keys cells).insertionSort (· ≤ ·)) (m :: ms)).2 ≠ [] :=
          ne_nil_of_mem (mem_appendNew.2 (.inr (mem_cons_self ..)))
        rw [← hsort] at hfits ⊢
        obtain ⟨rebuilt, hencode, hindexed⟩ := encodeIndexedSet_spec hne hall hfits
        refine ⟨some rebuilt, ?_, hindexed⟩
        rw [addEach, hfind]
        simp only [Option.isSome_none, Bool.false_eq_true, if_false, if_pos hbuild]
        rw [h.decodeIndexedSet_eq, some_bind]
        simp [hencode, hperm.1]
      · -- in place
        have hplaced := keys_place hempty m used
        have hcount : (entries (cells.set slot (.live m used))).length =
            (entries cells).length + 1 := by
          rw [← length_keys, hplaced.length_eq, length_cons, length_keys]
        have hput := h.put (n := (entries cells).length + 1) (by omega) hempty hreached hnot
          (by omega)
        rw [← hcount] at hput
        have hperm := appendNew_perm (hplaced.trans (perm_append_singleton m _).symm) ms
        have hsort := insertionSort_eq_of_perm
          (hperm.2.symm.trans (perm_insertionSort (· ≤ ·) _).symm)
          (pairwise_lt_insertionSort (nodup_appendNew hput.probed.keys_nodup ms))
        simp only [appendNew, hmem, if_false] at hfits ⊢
        rw [hsort] at hfits ⊢
        obtain ⟨rebuilt, hresult, hindexed⟩ := ih hput
          (by rw [hcount, length_set]; omega) (fun _ => hfits) hput.probed.keys_nodup
        rw [hcount, length_set] at hresult hindexed
        refine ⟨rebuilt, ?_, ?_⟩
        · rw [addEach, hfind]
          simp only [Option.isSome_none, Bool.false_eq_true, if_false, if_neg hbuild]
          rw [← hperm.1]
          exact Option.map_eq_some_iff.2 ⟨_, hresult, rfl⟩
        · rw [addEach, hfind]
          simp only [Option.isSome_none, Bool.false_eq_true, if_false, if_neg hbuild]
          exact hindexed

end Sets
end SnugKV
