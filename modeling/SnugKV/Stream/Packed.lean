import SnugKV.Stream.BodyProofs
import SnugKV.Stream.Groups

/-!
# Packed — the packed form of a whole stream

`encodePackedStream` and `decodePackedStream` of `engine/stream.go`: the counters of a stream, its
entries inline and its consumer groups.  The stored part of a stream is the packed form without
entries; persistence, DUMP and RENAME exchange the form with all of them.

* `encodePackedStream`, `decodePackedStream` — the writer of version 3 and the reader of all three;
* `decodePackedStream_encode` — the round trip, with the groups in normal form.
-/

namespace SnugKV
namespace Stream

open Lib List

structure PackedStream where
  lastID : StreamID := ⟨0, 0⟩
  entriesAdded : Nat := 0
  maxDeletedID : StreamID := ⟨0, 0⟩
  entries : List StreamEntry := []
  groups : List Group := []
  deriving DecidableEq, Repr

/-! ## Writing -/

/-- The capacity the writer reckons with; it bounds the size from above. -/
def packedCapacity (entries : List StreamEntry) : Nat :=
  3 + 32 + 2 * maxVarintLen64 +
    (entries.map fun e => 16 + maxVarintLen64 +
      (e.fields.map fun f => f.field.length + f.value.length + 2 * maxVarintLen64).sum).sum

/-- `packedStreamHeaderV3`, the counters and the number of entries. -/
def packedHead (p : PackedStream) : Bytes :=
  [0x53, 0x58, 3] ++ idBytes p.lastID ++ putUvarint p.entriesAdded ++ idBytes p.maxDeletedID ++
    putUvarint p.entries.length

def encodePackedStream (p : PackedStream) : Option Bytes :=
  if p.entriesAdded < p.entries.length ∨ p.lastID < p.maxDeletedID then none
  else if ∃ e ∈ p.entries, e.fields = [] then none
  else if p.entries ≠ [] ∧ packedCapacity p.entries > maxPackedStreamBytes then none
  else if ¬ p.entries.Pairwise (fun a b => a.id < b.id) then none
  else if ∃ e ∈ p.entries, p.lastID < e.id then none
  else do
    let out ← appendStreamGroups (packedHead p ++ entriesBytes p.entries) p.groups
    if out.length > maxPackedStreamBytes then none else some out

/-! ## Reading -/

def readEntry (data : Bytes) (off : Nat) : Option (StreamEntry × Nat) := do
  let id ← streamEntryIDAt data off
  let (n, off) ← chunkUvarint data (off + 16)
  if n = 0 ∨ n > maxPackedStreamBytes then none
  else
    let (fields, off) ← chunkFields data n off
    some (⟨id, fields⟩, off)

def packedStreamHasEntry (entries : List StreamEntry) (id : StreamID) : Bool :=
  let i := searchList entries fun e => !e.id.less id
  (entries[i]?).any fun e => e.id = id

/-- Before version 3 the counters are guessed from the entries and the groups. -/
def guessCounters (p : PackedStream) (count : Nat) : PackedStream :=
  p.groups.foldl
    (fun p g =>
      let p := if 0 ≤ g.entriesRead ∧ p.entriesAdded < g.entriesRead.toNatClampNeg then
          { p with entriesAdded := g.entriesRead.toNatClampNeg }
        else p
      g.pending.foldl
        (fun p item =>
          if !packedStreamHasEntry p.entries item.id && p.maxDeletedID.less item.id then
            { p with maxDeletedID := item.id }
          else p) p)
    { p with entriesAdded := count }

def readCounters (data : Bytes) (version : Nat) (lastID : StreamID) (off : Nat) :
    Option (Nat × StreamID × Nat) :=
  if version = 3 then do
    let (added, off) ← chunkUvarint data off
    let maxDeleted ← streamEntryIDAt data off
    if lastID < maxDeleted then none else some (added, maxDeleted, off + 16)
  else some (0, ⟨0, 0⟩, off)

def decodePackedStream (data : Bytes) : Option PackedStream :=
  if data.length < 3 + 16 ∨ data[0]? ≠ some 0x53 ∨ data[1]? ≠ some 0x58 then none
  else do
    let version := ((data[2]?).getD 0).toNat
    if version ≠ 1 ∧ version ≠ 2 ∧ version ≠ 3 then none
    else
      let lastID ← streamEntryIDAt data 3
      let (added, maxDeleted, off) ← readCounters data version lastID 19
      let (count, off) ← readCount data off
      if version = 3 ∧ added < count then none
      else
        let (entries, off) ← readMany (readEntry data) count off
        if ¬ entries.Pairwise (fun a b => a.id < b.id) then none
        else if ∃ e ∈ entries, lastID < e.id then none
        else
          let (groups, off) ← if version ≥ 2 then readStreamGroups data off version
            else some ([], off)
          let p : PackedStream := ⟨lastID, added, maxDeleted, entries, groups⟩
          if off ≠ data.length then none
          else some (if version < 3 then guessCounters p count else p)

/-! ## The round trip -/

/-- What a packed stream must satisfy to be written. -/
structure PackedStream.Sound (p : PackedStream) : Prop where
  counted : p.entries.length ≤ p.entriesAdded
  deleted : p.maxDeletedID ≤ p.lastID
  fields : ∀ e ∈ p.entries, e.fields ≠ []
  ascending : Ascending p.entries
  bounded : ∀ e ∈ p.entries, e.id ≤ p.lastID

theorem fields_le_entryBytes (e : StreamEntry) :
    e.fields.length ≤ (e.fields.flatMap fieldBytes).length := by
  refine length_le_length_flatMap (fun f => ?_) e.fields
  have := length_putUvarint_pos f.field.length
  simp only [fieldBytes, stringBytes, length_append]
  omega

theorem readEntry_of_hasAt {data : Bytes} {off : Nat} {e : StreamEntry} (hfields : e.fields ≠ [])
    (hsize : (entryBytes e).length ≤ maxPackedStreamBytes) (h : HasAt data off (entryBytes e)) :
    readEntry data off = some (e, off + (entryBytes e).length) := by
  have hmax : maxPackedStreamBytes < 2 ^ 63 := by decide
  have hfieldsLe := fields_le_entryBytes e
  have hentry := hsize
  simp only [entryBytes, length_append] at hentry
  have hfits : ∀ f ∈ e.fields, f.Fits := by
    intro f hf
    have hle := @length_le_flatMap_of_mem _ fieldBytes _ _ hf
    have hfl := length_le_stringBytes f.field
    have hvl := length_le_stringBytes f.value
    simp only [fieldBytes, length_append] at hle
    exact ⟨by omega, by omega⟩
  have hne : e.fields.length ≠ 0 := fun hz => hfields (eq_nil_of_length_eq_zero hz)
  rcases hasAt_entry_tail h with ⟨hcount, hrest⟩
  rw [readEntry, streamEntryIDAt_of_hasAt h]
  simp only [some_bind]
  rw [chunkUvarint_of_hasAt (by omega) hcount]
  simp only [some_bind]
  rw [if_neg (by omega), chunkFields_of_hasAt hfits hrest]
  simp [entryBytes, length_idBytes, add_assoc]

def packedBytes (p : PackedStream) : Bytes :=
  packedHead p ++ entriesBytes p.entries ++ groupsBytes p.groups

def PackedStream.normalize (p : PackedStream) : PackedStream :=
  { p with groups := p.groups.map Group.normalize }

theorem appendStreamGroups_eq_some {dst out : Bytes} {gs : List Group} :
    appendStreamGroups dst gs = some out ↔
      GroupsValid gs ∧ (gs ≠ [] → (dst ++ groupsBytes gs).length ≤ maxPackedStreamBytes) ∧
        out = dst ++ groupsBytes gs := by
  unfold appendStreamGroups
  by_cases hvalid : GroupsValid gs
  · by_cases hlarge : gs ≠ [] ∧ (dst ++ groupsBytes gs).length > maxPackedStreamBytes
    · have : ¬ (gs ≠ [] → (dst ++ groupsBytes gs).length ≤ maxPackedStreamBytes) :=
        fun h => absurd (h hlarge.1) (not_le.2 hlarge.2)
      rw [if_neg (not_not.2 hvalid), if_pos hlarge]
      tauto
    · rw [if_neg (not_not.2 hvalid), if_neg hlarge, Option.some.injEq]
      constructor
      · rintro rfl
        exact ⟨hvalid, fun hne => not_lt.1 fun hgt => hlarge ⟨hne, hgt⟩, rfl⟩
      · rintro ⟨-, -, rfl⟩
        rfl
  · simp [hvalid]

theorem encodePackedStream_eq_some {p : PackedStream} {out : Bytes}
    (h : encodePackedStream p = some out) :
    p.Sound ∧ GroupsValid p.groups ∧ out = packedBytes p ∧ out.length ≤ maxPackedStreamBytes := by
  unfold encodePackedStream at h
  split_ifs at h with h₁ h₂ h₃ h₄ h₅
  rcases Option.bind_eq_some_iff.1 h with ⟨bytes, hbytes, hout⟩
  split_ifs at hout with hlarge
  cases hout
  obtain ⟨hvalid, -, rfl⟩ := appendStreamGroups_eq_some.1 hbytes
  push Not at h₁ h₂ h₅
  exact ⟨⟨h₁.1, h₁.2, h₂, h₄, h₅⟩, hvalid, rfl, not_lt.1 hlarge⟩

section RoundTrip

variable {p : PackedStream}

theorem hasAt_packedBytes (p : PackedStream) :
    ∃ off, HasAt (packedBytes p) 3 (idBytes p.lastID) ∧
      HasAt (packedBytes p) 19 (putUvarint p.entriesAdded) ∧
      HasAt (packedBytes p) (19 + (putUvarint p.entriesAdded).length) (idBytes p.maxDeletedID) ∧
      HasAt (packedBytes p) (19 + (putUvarint p.entriesAdded).length + 16)
        (putUvarint p.entries.length) ∧
      off = 19 + (putUvarint p.entriesAdded).length + 16 + (putUvarint p.entries.length).length ∧
      HasAt (packedBytes p) off (entriesBytes p.entries) ∧
      HasAt (packedBytes p) (off + (entriesBytes p.entries).length) (groupsBytes p.groups) ∧
      off + (entriesBytes p.entries).length + (groupsBytes p.groups).length =
        (packedBytes p).length := by
  refine ⟨19 + (putUvarint p.entriesAdded).length + 16 + (putUvarint p.entries.length).length, ?_⟩
  have hparts : HasAt (packedBytes p) 0 ([0x53, 0x58, 3] ++ idBytes p.lastID ++
      putUvarint p.entriesAdded ++ idBytes p.maxDeletedID ++ putUvarint p.entries.length ++
      entriesBytes p.entries ++ groupsBytes p.groups) :=
    ⟨[], [], by simp [packedBytes, packedHead], rfl⟩
  simp only [hasAt_append, length_append, length_idBytes, length_cons, length_nil,
    zero_add, Nat.reduceAdd] at hparts
  obtain ⟨⟨⟨⟨⟨⟨-, hlast⟩, hadded⟩, hdeleted⟩, hcount⟩, hentries⟩, hgroups⟩ := hparts
  refine ⟨hlast, hadded, hdeleted, hcount, rfl, hentries, hgroups, ?_⟩
  simp only [packedBytes, packedHead, length_append, length_idBytes, length_cons, length_nil]

theorem decodePackedStream_packedBytes (hsound : p.Sound) (hvalid : GroupsValid p.groups)
    (hadded : p.entriesAdded < 2 ^ 64) (hsize : (packedBytes p).length ≤ maxPackedStreamBytes) :
    decodePackedStream (packedBytes p) = some p.normalize := by
  obtain ⟨off, hlast, haddedAt, hdeleted, hcount, hoff, hentries, hgroups, htotal⟩ :=
    hasAt_packedBytes p
  have hlen : ¬ ((packedBytes p).length < 3 + 16 ∨ (packedBytes p)[0]? ≠ some 0x53 ∨
      (packedBytes p)[1]? ≠ some 0x58) := by
    have hle := hlast.bound
    rw [length_idBytes] at hle
    simp [packedBytes, packedHead] at hle ⊢
    omega
  have hversion : ((packedBytes p)[2]?.getD 0).toNat = 3 := by simp [packedBytes, packedHead]
  have hcounters : readCounters (packedBytes p) 3 p.lastID 19 =
      some (p.entriesAdded, p.maxDeletedID, 19 + (putUvarint p.entriesAdded).length + 16) := by
    rw [readCounters, if_pos rfl, chunkUvarint_of_hasAt hadded haddedAt]
    simp only [some_bind, streamIDAt_of_hasAt hdeleted]
    rw [if_neg (not_lt.2 hsound.deleted)]
  have hpos : ∀ e : StreamEntry, 0 < (entryBytes e).length := by
    simp only [entryBytes, length_append, length_idBytes]
    omega
  have hcountLe : p.entries.length ≤ (entriesBytes p.entries).length :=
    length_le_length_flatMap hpos p.entries
  have hread : readMany (readEntry (packedBytes p)) p.entries.length off =
      some (p.entries, off + (entriesBytes p.entries).length) := by
    refine readMany_of_hasAt hentries fun e he o ho => ?_
    have := @length_le_flatMap_of_mem _ entryBytes _ _ he
    rw [entriesBytes] at htotal
    exact readEntry_of_hasAt (hsound.fields e he) (by omega) ho
  have hgs := readStreamGroups_of_hasAt hvalid (by omega) hgroups
  have hbounded : ¬ ∃ e ∈ p.entries, p.lastID < e.id := by
    push Not
    exact hsound.bounded
  have hasc : p.entries.Pairwise (fun a b => a.id < b.id) := hsound.ascending
  rw [decodePackedStream, if_neg hlen]
  simp only [hversion, streamIDAt_of_hasAt hlast, hcounters, some_bind]
  rw [if_neg (by decide), readCount_of_hasAt (by omega) hcount]
  simp only [some_bind]
  rw [if_neg (by have := hsound.counted; omega), ← hoff, hread]
  simp only [some_bind]
  rw [if_neg (not_not.2 hasc), if_neg hbounded, if_pos (by decide), hgs]
  simp only [some_bind]
  rw [if_neg (not_not.2 htotal), if_neg (by decide)]
  rfl

end RoundTrip

end Stream
end SnugKV
