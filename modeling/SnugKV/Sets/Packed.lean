import SnugKV.Lib.Buffer
import SnugKV.Lib.CommonPrefix
import SnugKV.Lib.Rank

/-!
# Packed — the packed and the front-coded form of a set

The codecs of `engine/set.go`.  Both forms hold the members in ascending order: `SS1` with the
length before each member, `ST1` for members of one width, each with the number of bytes it shares
with the one before.

* `packedBytes`, `tinyBytes`                    — the two forms;
* `decodePackedSet_packedBytes`, `decodeTinyFixedSet_tinyBytes` — the decoders read them back;
* `packedSetContains_packedBytes`, `tinyFixedSetContains_tinyBytes` — the direct lookups agree;
* `tinyFixedSetAddOne_of_notMem` and its siblings — what the direct insertion does;
* `tinyBytes_insert_le`                         — by how much the form grows;
* `tiny_operations_agree`                       — the direct operations against the members.

The texts of the errors about damaged values (`invalid packed set`, `invalid tiny set` and the like)
are `none`.
-/

namespace SnugKV
namespace Sets

open Lib List

/-- `maxPackedSetBytes`. -/
def maxPackedSetBytes : Nat := 32 * 2 ^ 20

/-- `SS1`. -/
def packedSetHeader : Bytes := [0x53, 0x53, 1]

/-- `ST1`. -/
def tinySetHeader : Bytes := [0x53, 0x54, 1]

def readSetUvarint (data : Bytes) (off : Nat) : Option (Nat × Nat) :=
  if data.length ≤ off then none else (uvarint (data.drop off)).map fun r => (r.1, off + r.2)

/-! ## The packed form -/

def recordBytes (m : Bytes) : Bytes := putUvarint m.length ++ m

def packedBytes (ms : List Bytes) : Bytes :=
  packedSetHeader ++ putUvarint ms.length ++ ms.flatMap recordBytes

/-- The capacity the encoders reckon with; it bounds the size from above. -/
def packedCapacity (ms : List Bytes) : Nat :=
  3 + maxVarintLen64 + (ms.map fun m => m.length + maxVarintLen64).sum

/-- `encodePackedSetSorted`; the only refusal of an ascending list is its size. -/
def encodePackedSetSorted (ms : List Bytes) : Option Bytes :=
  if ¬ ms.Pairwise (· < ·) then none
  else if ms ≠ [] ∧ packedCapacity ms > maxPackedSetBytes then none
  else if (packedBytes ms).length > maxPackedSetBytes then none
  else some (packedBytes ms)

/-- `encodePackedSet`: the members are sorted first. -/
def encodePackedSet (ms : List Bytes) : Option Bytes :=
  encodePackedSetSorted (ms.insertionSort (· ≤ ·))

def packedSetCount (data : Bytes) : Option (Nat × Nat) :=
  if data.take 3 ≠ packedSetHeader then none
  else do
    let (count, off) ← readSetUvarint data 3
    if count > maxPackedSetBytes then none else some (count, off)

/-- The members from `off` on, each above the one before. -/
def decodeMembers (data : Bytes) : Nat → Nat → Option Bytes → Option (List Bytes × Nat)
  | 0, off, _ => some ([], off)
  | n + 1, off, last => do
      let (len, off) ← readSetUvarint data off
      if len > data.length - off then none
      else
        let m := readAt data off len
        if last.any (fun p => m ≤ p) then none
        else
          let (ms, off) ← decodeMembers data n (off + len) (some m)
          some (m :: ms, off)

def decodePackedSet (data : Bytes) : Option (List Bytes) := do
  let (count, off) ← packedSetCount data
  let (ms, off) ← decodeMembers data count off none
  if off ≠ data.length then none else some ms

def containsMembers (data target : Bytes) : Nat → Nat → Option Bool
  | 0, off => if off ≠ data.length then none else some false
  | n + 1, off => do
      let (len, off) ← readSetUvarint data off
      if len > data.length - off then none
      else
        let m := readAt data off len
        if m = target then some true
        else if target < m then some false
        else containsMembers data target n (off + len)

def packedSetContains (data target : Bytes) : Option Bool := do
  let (count, off) ← packedSetCount data
  containsMembers data target count off

/-! ## The front-coded form -/

/-- Each member as the length it shares with the one before, and the rest of it. -/
def frontCode : Bytes → List Bytes → Bytes
  | _, [] => []
  | last, m :: ms =>
    putUvarint (commonPrefix last m) ++ m.drop (commonPrefix last m) ++ frontCode m ms

/-- The members `m :: ms`, all of the width of `m`. -/
def tinyBytes (m : Bytes) (ms : List Bytes) : Bytes :=
  tinySetHeader ++ putUvarint (ms.length + 1) ++ putUvarint m.length ++ m ++ frontCode m ms

def encodeTinyFixedSet : List Bytes → Option Bytes
  | m :: m' :: ms =>
    if ∀ x ∈ m' :: ms, x.length = m.length then some (tinyBytes m (m' :: ms)) else none
  | _ => none

/-- The number of members and their width, and where the first one starts. -/
def tinyHead (data : Bytes) : Option (Nat × Nat × Nat) :=
  if data.take 3 ≠ tinySetHeader then none
  else do
    let (count, off) ← readSetUvarint data 3
    if count < 2 ∨ count > maxPackedSetBytes then none
    else
      let (width, off) ← readSetUvarint data off
      if width > maxPackedSetBytes then none else some (count, width, off)

/-- The members behind `last`; `checked` says whether their order is checked. -/
def decodeFront (data : Bytes) (width : Nat) (checked : Bool) :
    Nat → Nat → Bytes → Option (List Bytes × Nat)
  | 0, off, _ => some ([], off)
  | n + 1, off, last => do
      let (shared, off) ← readSetUvarint data off
      if shared > width then none
      else if width - shared > data.length - off then none
      else
        let m := last.take shared ++ readAt data off (width - shared)
        if checked && m ≤ last then none
        else
          let (ms, off) ← decodeFront data width checked n (off + (width - shared)) m
          some (m :: ms, off)

/-- All members, from the first one at `off`. -/
def decodeWidth (data : Bytes) (checked : Bool) (count width off : Nat) : Option (List Bytes) :=
  if width > data.length - off then none
  else do
    let m := readAt data off width
    let (ms, off) ← decodeFront data width checked (count - 1) (off + width) m
    if off ≠ data.length then none else some (m :: ms)

def decodeTinyFixedSet (data : Bytes) : Option (List Bytes) := do
  let (count, width, off) ← tinyHead data
  decodeWidth data true count width off

/-- The length a member shares; below 128 it is one byte. -/
def readShared (data : Bytes) (off : Nat) : Option (Nat × Nat) :=
  match data[off]? with
  | none => none
  | some b => if b < 0x80 then some (b.toNat, off + 1) else readSetUvarint data off

/-- The loop of `tinyFixedSetContains`: the member before `off` is smaller than the target and
agrees with it on `agreed` bytes. -/
def containsFront (data target : Bytes) (width : Nat) : Nat → Nat → Nat → Option Bool
  | 0, off, _ => if off ≠ data.length then none else some false
  | n + 1, off, agreed => do
      let (shared, off) ← readShared data off
      if shared ≥ width then none
      else if width - shared > data.length - off then none
      else if shared > agreed then containsFront data target width n (off + (width - shared)) agreed
      else if shared < agreed then some false
      else
        let suffix := readAt data off (width - shared)
        let rest := target.drop shared
        let k := commonPrefix suffix rest
        if k = width - shared then some true
        else if suffix.getD k 0 > rest.getD k 0 then some false
        else containsFront data target width n (off + (width - shared)) (shared + k)

def tinyFixedSetContains (data target : Bytes) : Option Bool := do
  let (count, width, off) ← tinyHead data
  if target.length ≠ width then some false
  else if width > data.length - off then none
  else
    let first := readAt data off width
    let agreed := commonPrefix first target
    if agreed = width then some true
    else if first.getD agreed 0 > target.getD agreed 0 then some false
    else containsFront data target width (count - 1) (off + width) agreed

/-- `appendMember` for every member in turn, with the target before the first larger one. -/
def insertMember (target : Bytes) (ms : List Bytes) : List Bytes :=
  ms.orderedInsert (· < ·) target

/-- What `tinyFixedSetAddOne` gives: the new form if the member was added, the number of members
and the width. -/
structure TinyAdd where
  updated : Option Bytes
  count : Nat
  width : Nat
  deriving DecidableEq, Repr

/-- The loop of the source also returns when it meets the target itself, which the lookup in front
of it has excluded for every form whose members ascend. -/
def tinyFixedSetAddOne (data target : Bytes) : Option TinyAdd := do
  let (count, width, off) ← tinyHead data
  if target.length ≠ width then some ⟨none, count, width⟩
  else if width > data.length - off then none
  else
    let present ← tinyFixedSetContains data target
    if present then some ⟨none, count, width⟩
    else
      let ms ← decodeWidth data false count width off
      match insertMember target ms with
      | [] => none
      | m :: ms => some ⟨some (tinyBytes m ms), count + 1, width⟩

/-! ## Reading what was written -/

section Readers

variable {data : Bytes} {off : Nat}

theorem readSetUvarint_of_hasAt {n : Nat} (hn : n < 2 ^ 64) (h : HasAt data off (putUvarint n)) :
    readSetUvarint data off = some (n, off + (putUvarint n).length) := by
  have hbound := h.bound
  have hpos := length_putUvarint_pos n
  rcases h with ⟨pre, post, rfl, rfl⟩
  rw [readSetUvarint, if_neg (by omega), drop_left, uvarint_putUvarint hn, Option.map_some]

theorem readShared_of_hasAt {n : Nat} (hn : n < 2 ^ 64) (h : HasAt data off (putUvarint n)) :
    readShared data off = some (n, off + (putUvarint n).length) := by
  have hread := readSetUvarint_of_hasAt hn h
  rcases h with ⟨pre, post, rfl, rfl⟩
  unfold readShared
  by_cases hsmall : n < 128
  · have hbytes : putUvarint n = [UInt8.ofNat n] := by
      simp [putUvarint, putUvarintAux, maxVarintLen64, hsmall]
    have hget : (pre ++ (putUvarint n ++ post))[pre.length]? = some (UInt8.ofNat n) := by
      simp [hbytes]
    have hval : (UInt8.ofNat n).toNat = n := by
      rw [UInt8.toNat_ofNat']
      omega
    have hlt : UInt8.ofNat n < 0x80 := by
      rw [UInt8.lt_iff_toNat_lt, hval]
      exact hsmall
    rw [hget]
    simp only [if_pos hlt, hval, hbytes, length_singleton]
  · have hbytes : ∃ rest, putUvarint n = UInt8.ofNat (n % 128 + 128) :: rest := by
      exact ⟨_, by simp only [putUvarint, maxVarintLen64, putUvarintAux, hsmall, if_false]; rfl⟩
    obtain ⟨rest, hbytes⟩ := hbytes
    have hget : (pre ++ (putUvarint n ++ post))[pre.length]? =
        some (UInt8.ofNat (n % 128 + 128)) := by
      simp [hbytes]
    have hge : ¬ UInt8.ofNat (n % 128 + 128) < 0x80 := by
      rw [UInt8.lt_iff_toNat_lt, UInt8.toNat_ofNat', show (0x80 : UInt8).toNat = 128 from rfl]
      omega
    rw [hget]
    simp only [if_neg hge]
    exact hread

/-- A record at `off`: the reader of lengths stops before the member. -/
theorem record_of_hasAt {m : Bytes} {rest : Bytes} (hsize : data.length < 2 ^ 64)
    (h : HasAt data off (recordBytes m ++ rest)) :
    ∃ p, readSetUvarint data off = some (m.length, p) ∧ m.length ≤ data.length - p ∧
      readAt data p m.length = m ∧ HasAt data (p + m.length) rest ∧
      p + m.length = off + (recordBytes m).length := by
  obtain ⟨hrecord, hrest⟩ := hasAt_append.1 h
  obtain ⟨hlen, hm⟩ := hasAt_append.1 hrecord
  have hbound := hm.bound
  have hend : off + (putUvarint m.length).length + m.length = off + (recordBytes m).length := by
    rw [recordBytes, length_append]
    omega
  refine ⟨_, readSetUvarint_of_hasAt (by omega) hlen, by omega, hm.readAt, ?_, hend⟩
  rw [hend]
  exact hrest

end Readers

section Packed

variable {data : Bytes} {ms : List Bytes}

theorem decodeMembers_of_hasAt {off : Nat} {last : Option Bytes} (hsize : data.length < 2 ^ 64)
    (hsorted : ms.Pairwise (· < ·)) (hlast : ∀ p ∈ last, ∀ m ∈ ms, p < m)
    (h : HasAt data off (ms.flatMap recordBytes)) :
    decodeMembers data ms.length off last = some (ms, off + (ms.flatMap recordBytes).length) := by
  induction ms generalizing off last with
  | nil => rfl
  | cons m ms ih =>
    obtain ⟨hm, hsorted⟩ := pairwise_cons.1 hsorted
    obtain ⟨p, hread, hroom, hmember, hrest, hend⟩ := record_of_hasAt hsize h
    have hfirst : last.any (fun q => decide (m ≤ q)) = false := by
      cases last with
      | none => rfl
      | some q => simpa using hlast q rfl m (mem_cons_self ..)
    have hbehind : ∀ p ∈ some m, ∀ x ∈ ms, p < x := by
      rintro _ ⟨⟩
      exact hm
    have htail := ih hsorted hbehind hrest
    simp only [length_cons, decodeMembers, hread, some_bind]
    rw [if_neg (by omega), hmember]
    simp only [hfirst, Bool.false_eq_true, if_false, htail, some_bind, flatMap_cons,
      length_append]
    congr 2
    omega

theorem containsMembers_of_hasAt {off : Nat} {target : Bytes} (hsize : data.length < 2 ^ 64)
    (hsorted : ms.Pairwise (· < ·)) (h : HasAt data off (ms.flatMap recordBytes))
    (hend : off + (ms.flatMap recordBytes).length = data.length) :
    containsMembers data target ms.length off = some (decide (target ∈ ms)) := by
  induction ms generalizing off with
  | nil =>
    have hoff : off = data.length := by simpa using hend
    simp [containsMembers, hoff]
  | cons m ms ih =>
    obtain ⟨hm, hsorted⟩ := pairwise_cons.1 hsorted
    obtain ⟨p, hread, hroom, hmember, hrest, hnext⟩ := record_of_hasAt hsize h
    rw [flatMap_cons, length_append] at hend
    have htail := ih hsorted hrest (by omega)
    simp only [length_cons, containsMembers, hread, some_bind]
    rw [if_neg (by omega), hmember]
    by_cases heq : m = target
    · simp [heq]
    · rw [if_neg heq]
      by_cases hlt : target < m
      · -- every member behind this one is larger still
        have hnot : target ∉ m :: ms := by
          rintro hmem
          rcases mem_cons.1 hmem with rfl | hmem
          · exact heq rfl
          · exact lt_asymm hlt (hm target hmem)
        simp [hlt, hnot]
      · rw [if_neg hlt, htail]
        simp [Ne.symm heq]

theorem packedBytes_take (ms : List Bytes) : (packedBytes ms).take 3 = packedSetHeader := rfl

theorem hasAt_packedBytes (ms : List Bytes) :
    HasAt (packedBytes ms) 3 (putUvarint ms.length) ∧
      HasAt (packedBytes ms) (3 + (putUvarint ms.length).length) (ms.flatMap recordBytes) := by
  have hall : HasAt (packedBytes ms) 0
      (packedSetHeader ++ (putUvarint ms.length ++ ms.flatMap recordBytes)) :=
    ⟨[], [], by simp [packedBytes], rfl⟩
  exact hasAt_append.1 (hasAt_append.1 hall).2

theorem length_packedBytes (ms : List Bytes) :
    3 + (putUvarint ms.length).length + (ms.flatMap recordBytes).length =
      (packedBytes ms).length := by
  simp [packedBytes, packedSetHeader]
  omega

theorem packedSetCount_packedBytes (hcount : ms.length ≤ maxPackedSetBytes) :
    packedSetCount (packedBytes ms) = some (ms.length, 3 + (putUvarint ms.length).length) := by
  have hsmall : ms.length < 2 ^ 64 := lt_of_le_of_lt hcount (by decide)
  have hread := readSetUvarint_of_hasAt hsmall (hasAt_packedBytes ms).1
  rw [packedSetCount, if_neg (by simp [packedBytes_take]), hread]
  simp [hcount]

theorem decodePackedSet_packedBytes (hsorted : ms.Pairwise (· < ·))
    (hsize : (packedBytes ms).length < 2 ^ 64) (hcount : ms.length ≤ maxPackedSetBytes) :
    decodePackedSet (packedBytes ms) = some ms := by
  have hnone : ∀ p ∈ (none : Option Bytes), ∀ m ∈ ms, p < m := by rintro _ ⟨⟩
  have hmembers := decodeMembers_of_hasAt hsize hsorted hnone (hasAt_packedBytes ms).2
  rw [length_packedBytes] at hmembers
  simp [decodePackedSet, packedSetCount_packedBytes hcount, hmembers]

theorem packedSetContains_packedBytes (target : Bytes) (hsorted : ms.Pairwise (· < ·))
    (hsize : (packedBytes ms).length < 2 ^ 64) (hcount : ms.length ≤ maxPackedSetBytes) :
    packedSetContains (packedBytes ms) target = some (decide (target ∈ ms)) := by
  simp [packedSetContains, packedSetCount_packedBytes hcount,
    containsMembers_of_hasAt hsize hsorted (hasAt_packedBytes ms).2 (length_packedBytes ms)]

theorem recordBytes_length_le (m : Bytes) : (recordBytes m).length ≤ m.length + maxVarintLen64 := by
  have := length_putUvarint_le m.length
  rw [recordBytes, length_append]
  omega

/-- The capacity bounds the size, the number of members and the width of each. -/
theorem packedBytes_length_le (ms : List Bytes) : (packedBytes ms).length ≤ packedCapacity ms := by
  have hrecords : (ms.flatMap recordBytes).length ≤
      (ms.map fun m => m.length + maxVarintLen64).sum := by
    rw [length_flatMap]
    exact sum_le_sum fun m _ => recordBytes_length_le m
  have hcount := length_putUvarint_le ms.length
  rw [← length_packedBytes, packedCapacity]
  omega

theorem length_le_packedCapacity (ms : List Bytes) : ms.length ≤ packedCapacity ms := by
  have hsum : ms.length ≤ (ms.map fun m => m.length + maxVarintLen64).sum := by
    induction ms with
    | nil => simp
    | cons m ms ih =>
      have hpos : 1 ≤ maxVarintLen64 := by decide
      rw [length_cons, map_cons, sum_cons]
      omega
  rw [packedCapacity]
  omega

theorem member_le_packedCapacity {m : Bytes} (h : m ∈ ms) : m.length ≤ packedCapacity ms := by
  have hsum := le_sum_of_mem (mem_map_of_mem (f := fun m => m.length + maxVarintLen64) h)
  rw [packedCapacity]
  omega

theorem encodePackedSetSorted_eq (hsorted : ms.Pairwise (· < ·))
    (hfits : packedCapacity ms ≤ maxPackedSetBytes) :
    encodePackedSetSorted ms = some (packedBytes ms) := by
  have hsize := packedBytes_length_le ms
  rw [encodePackedSetSorted, if_neg (not_not.2 hsorted), if_neg (by omega), if_neg (by omega)]

end Packed

section Tiny

variable {data : Bytes} {width : Nat} {m last target : Bytes} {ms : List Bytes} {off : Nat}

/-- A front-coded member at `off`, behind `last`: both readers of the shared length stop before the
rest of the member. -/
theorem front_of_hasAt {rest : Bytes}
    (h : HasAt data off (putUvarint (commonPrefix last m) ++ m.drop (commonPrefix last m) ++ rest))
    (hlen : last.length = m.length) (hne : last ≠ m) (hmax : m.length ≤ maxPackedSetBytes) :
    commonPrefix last m < m.length ∧ ∃ p,
      readSetUvarint data off = some (commonPrefix last m, p) ∧
      readShared data off = some (commonPrefix last m, p) ∧
      m.length - commonPrefix last m ≤ data.length - p ∧
      readAt data p (m.length - commonPrefix last m) = m.drop (commonPrefix last m) ∧
      HasAt data (p + (m.length - commonPrefix last m)) rest ∧
      p + (m.length - commonPrefix last m) = off +
        (putUvarint (commonPrefix last m) ++ m.drop (commonPrefix last m)).length := by
  have hshared : commonPrefix last m < m.length := hlen ▸ commonPrefix_lt_of_ne hlen hne
  obtain ⟨hpiece, hrest⟩ := hasAt_append.1 h
  obtain ⟨hlen, hdrop⟩ := hasAt_append.1 hpiece
  have hbound := hdrop.bound
  have hsmall : commonPrefix last m < 2 ^ 64 := by
    have hlimit : maxPackedSetBytes < 2 ^ 64 := by decide
    omega
  have hread := hdrop.readAt
  rw [length_drop] at hbound hread
  have hend : off + (putUvarint (commonPrefix last m)).length + (m.length - commonPrefix last m) =
      off + (putUvarint (commonPrefix last m) ++ m.drop (commonPrefix last m)).length := by
    rw [length_append, length_drop]
    omega
  refine ⟨hshared, _, readSetUvarint_of_hasAt hsmall hlen, readShared_of_hasAt hsmall hlen,
    by omega, hread, ?_, hend⟩
  rw [hend]
  exact hrest

theorem decodeFront_of_hasAt (checked : Bool)
    (hwidth : ∀ x ∈ last :: ms, x.length = width) (hmax : width ≤ maxPackedSetBytes)
    (hsorted : (last :: ms).Pairwise (· < ·)) (h : HasAt data off (frontCode last ms)) :
    decodeFront data width checked ms.length off last =
      some (ms, off + (frontCode last ms).length) := by
  induction ms generalizing off last with
  | nil => rfl
  | cons m ms ih =>
    obtain ⟨hlast, hsorted⟩ := pairwise_cons.1 hsorted
    have hlt : last < m := hlast m (mem_cons_self ..)
    obtain ⟨hlastLen, hwidth⟩ := forall_mem_cons.1 hwidth
    have hm : m.length = width := hwidth m (mem_cons_self ..)
    obtain ⟨hshared, p, hread, -, hroom, hrest, hnext, hend⟩ :=
      front_of_hasAt h (hlastLen.trans hm.symm) hlt.ne (by omega)
    rw [hm] at hshared hroom hrest hnext hend
    have hmember : last.take (commonPrefix last m) ++ m.drop (commonPrefix last m) = m := by
      rw [take_commonPrefix, take_append_drop]
    have htail := ih hwidth hsorted hnext
    simp only [length_cons, decodeFront, hread, some_bind]
    rw [if_neg (by omega), if_neg (by omega), hrest, hmember, if_neg (by simp [hlt.not_ge]), htail]
    simp only [some_bind, frontCode, hend]
    simp only [length_append]
    congr 2
    omega

/-- The members at `off` are behind `last`, which is behind the target's place. -/
theorem containsFront_of_hasAt
    (hwidth : ∀ x ∈ last :: ms, x.length = width) (hmax : width ≤ maxPackedSetBytes)
    (htarget : target.length = width) (hsorted : (last :: ms).Pairwise (· < ·))
    (hbefore : last < target) (h : HasAt data off (frontCode last ms))
    (hend : off + (frontCode last ms).length = data.length) :
    containsFront data target width ms.length off (commonPrefix last target) =
      some (decide (target ∈ ms)) := by
  induction ms generalizing off last with
  | nil =>
    have hoff : off = data.length := by simpa [frontCode] using hend
    simp [containsFront, hoff]
  | cons m ms ih =>
    obtain ⟨hlast, hsorted⟩ := pairwise_cons.1 hsorted
    have hlt : last < m := hlast m (mem_cons_self ..)
    obtain ⟨hlastLen, hwidth⟩ := forall_mem_cons.1 hwidth
    have hm : m.length = width := hwidth m (mem_cons_self ..)
    obtain ⟨hshared, p, -, hread, hroom, hrest, hnext, hstop⟩ :=
      front_of_hasAt h (hlastLen.trans hm.symm) hlt.ne (by omega)
    rw [hm] at hshared hroom hrest hnext hstop
    have habsent (hle : target < m) : target ∉ m :: ms := by
      intro hmem
      rcases mem_cons.1 hmem with rfl | hmem
      · exact lt_irrefl _ hle
      · exact lt_asymm hle ((pairwise_cons.1 hsorted).1 target hmem)
    have htail (hle : m < target) : containsFront data target width ms.length
        (p + (width - commonPrefix last m)) (commonPrefix m target) =
          some (decide (target ∈ m :: ms)) := by
      have hne : target ≠ m := hle.ne'
      rw [ih hwidth hsorted hle hnext (by
        rw [frontCode, length_append] at hend
        omega)]
      simp [hne]
    simp only [length_cons, containsFront, hread, some_bind]
    rw [if_neg (by omega), if_neg (by omega)]
    rcases lt_trichotomy (commonPrefix last target) (commonPrefix last m) with hmore | heq | hless
    · -- the member agrees with the one before for longer than the target does
      obtain ⟨hle, hsame⟩ := lt_of_lt_commonPrefix hbefore hmore
      rw [if_pos hmore, ← hsame, htail hle]
    · -- it agrees as long as the target does: the rest decides
      have htake : m.take (commonPrefix last m) = target.take (commonPrefix last m) := by
        rw [← take_commonPrefix last m, heq.symm, take_commonPrefix last target]
      have hdropLen : (m.drop (commonPrefix last m)).length =
          (target.drop (commonPrefix last m)).length := by
        simp [hm, htarget]
      have hwhole := commonPrefix_drop htake (by omega)
      rw [if_neg (by omega), if_neg (by omega), hrest]
      by_cases hsame : m = target
      · subst hsame
        simp [commonPrefix_self, hm]
      · have hne : m.drop (commonPrefix last m) ≠ target.drop (commonPrefix last m) := by
          intro hdrop
          refine hsame ?_
          rw [← take_append_drop (commonPrefix last m) m, htake, hdrop, take_append_drop]
        have hk := commonPrefix_lt_of_ne hdropLen hne
        rw [length_drop, hm] at hk
        rw [if_neg (by omega), ← hwhole]
        have hcompare := getD_lt_iff hdropLen.symm hne.symm 0
        rw [commonPrefix_comm (target.drop _), lt_drop_iff htake.symm] at hcompare
        by_cases hafter : target < m
        · simp only [gt_iff_lt, hcompare, hafter, if_true]
          simp [habsent hafter]
        · simp only [gt_iff_lt, hcompare, hafter, if_false]
          exact htail (lt_of_le_of_ne (not_lt.1 hafter) hsame)
    · -- it agrees for less long: the target would stand before it
      have hafter := (lt_of_lt_commonPrefix hlt hless).1
      rw [if_neg (by omega), if_pos hless]
      simp [habsent hafter]

/-- Members that the front-coded form can hold. -/
structure Fixed (m : Bytes) (ms : List Bytes) : Prop where
  sorted : (m :: ms).Pairwise (· < ·)
  width : ∀ x ∈ m :: ms, x.length = m.length
  several : ms ≠ []
  count : ms.length + 1 ≤ maxPackedSetBytes
  wide : m.length ≤ maxPackedSetBytes

def tinyStart (m : Bytes) (ms : List Bytes) : Nat :=
  3 + (putUvarint (ms.length + 1)).length + (putUvarint m.length).length

theorem tinyBytes_take (m : Bytes) (ms : List Bytes) :
    (tinyBytes m ms).take 3 = tinySetHeader := rfl

theorem length_tinyBytes (m : Bytes) (ms : List Bytes) :
    tinyStart m ms + m.length + (frontCode m ms).length = (tinyBytes m ms).length := by
  simp [tinyBytes, tinyStart, tinySetHeader]
  omega

theorem hasAt_tinyBytes (m : Bytes) (ms : List Bytes) :
    (HasAt (tinyBytes m ms) 3 (putUvarint (ms.length + 1)) ∧
      HasAt (tinyBytes m ms) (3 + (putUvarint (ms.length + 1)).length) (putUvarint m.length)) ∧
    HasAt (tinyBytes m ms) (tinyStart m ms) m ∧
      HasAt (tinyBytes m ms) (tinyStart m ms + m.length) (frontCode m ms) := by
  have hall : HasAt (tinyBytes m ms) 0 (tinySetHeader ++
      (putUvarint (ms.length + 1) ++ (putUvarint m.length ++ (m ++ frontCode m ms)))) :=
    ⟨[], [], by simp [tinyBytes], rfl⟩
  obtain ⟨hcount, hrest⟩ := hasAt_append.1 (hasAt_append.1 hall).2
  obtain ⟨hwidth, hrest⟩ := hasAt_append.1 hrest
  exact ⟨⟨hcount, hwidth⟩, hasAt_append.1 hrest⟩

theorem first_tinyBytes (m : Bytes) (ms : List Bytes) :
    m.length ≤ (tinyBytes m ms).length - tinyStart m ms ∧
      readAt (tinyBytes m ms) (tinyStart m ms) m.length = m := by
  have hfirst := (hasAt_tinyBytes m ms).2.1
  have hbound := hfirst.bound
  exact ⟨by omega, hfirst.readAt⟩

variable (hfixed : Fixed m ms)

include hfixed

theorem tinyHead_tinyBytes :
    tinyHead (tinyBytes m ms) = some (ms.length + 1, m.length, tinyStart m ms) := by
  have hlimit : maxPackedSetBytes < 2 ^ 64 := by decide
  have hcount := hfixed.count
  have hwide := hfixed.wide
  have hseveral : 0 < ms.length := length_pos_of_ne_nil hfixed.several
  obtain ⟨⟨hfirst, hsecond⟩, -⟩ := hasAt_tinyBytes m ms
  rw [tinyHead, if_neg (by simp [tinyBytes_take]),
    readSetUvarint_of_hasAt (by omega) hfirst, some_bind]
  simp only
  rw [if_neg (by omega), readSetUvarint_of_hasAt (by omega) hsecond, some_bind]
  rw [if_neg (by omega), tinyStart]

theorem decodeWidth_tinyBytes (checked : Bool) :
    decodeWidth (tinyBytes m ms) checked (ms.length + 1) m.length (tinyStart m ms) =
      some (m :: ms) := by
  obtain ⟨hroom, hfirst⟩ := first_tinyBytes m ms
  have hmembers := decodeFront_of_hasAt checked hfixed.width hfixed.wide hfixed.sorted
    (hasAt_tinyBytes m ms).2.2
  rw [length_tinyBytes] at hmembers
  rw [decodeWidth, if_neg (by omega), hfirst, Nat.add_sub_cancel]
  simp [hmembers]

theorem decodeTinyFixedSet_tinyBytes : decodeTinyFixedSet (tinyBytes m ms) = some (m :: ms) := by
  rw [decodeTinyFixedSet, tinyHead_tinyBytes hfixed, some_bind]
  exact decodeWidth_tinyBytes hfixed true

theorem tinyFixedSetContains_tinyBytes (target : Bytes) :
    tinyFixedSetContains (tinyBytes m ms) target = some (decide (target ∈ m :: ms)) := by
  obtain ⟨hroom, hfirst⟩ := first_tinyBytes m ms
  rw [tinyFixedSetContains, tinyHead_tinyBytes hfixed, some_bind]
  simp only
  by_cases hlen : target.length = m.length
  · rw [if_neg (by omega), if_neg (by omega), hfirst]
    by_cases hsame : m = target
    · subst hsame
      simp [commonPrefix_self]
    · have hk := commonPrefix_lt_of_ne hlen.symm hsame
      have hcompare := getD_lt_iff hlen (Ne.symm hsame) 0
      rw [commonPrefix_comm] at hcompare
      rw [if_neg (by omega)]
      by_cases hafter : target < m
      · -- the members ascend from the first one
        have habsent : target ∉ m :: ms := by
          intro hmem
          rcases mem_cons.1 hmem with rfl | hmem
          · exact lt_irrefl _ hafter
          · exact lt_asymm hafter ((pairwise_cons.1 hfixed.sorted).1 target hmem)
        simp only [gt_iff_lt, hcompare, hafter, if_true]
        simp [habsent]
      · simp only [gt_iff_lt, hcompare, hafter, if_false]
        rw [Nat.add_sub_cancel, containsFront_of_hasAt hfixed.width hfixed.wide hlen hfixed.sorted
          (lt_of_le_of_ne (not_lt.1 hafter) hsame) (hasAt_tinyBytes m ms).2.2
          (length_tinyBytes m ms)]
        simp [Ne.symm hsame]
  · have habsent : target ∉ m :: ms := fun hmem => hlen (hfixed.width target hmem)
    rw [if_pos hlen]
    simp [habsent]

theorem tinyFixedSetAddOne_of_mem (h : target ∈ m :: ms) :
    tinyFixedSetAddOne (tinyBytes m ms) target = some ⟨none, ms.length + 1, m.length⟩ := by
  obtain ⟨hroom, -⟩ := first_tinyBytes m ms
  rw [tinyFixedSetAddOne, tinyHead_tinyBytes hfixed, some_bind]
  simp only
  rw [if_neg (not_not.2 (hfixed.width target h)), if_neg (by omega),
    tinyFixedSetContains_tinyBytes hfixed]
  simp [h]

theorem tinyFixedSetAddOne_of_notMem (hlen : target.length = m.length) (h : target ∉ m :: ms) :
    ∃ x xs, insertMember target (m :: ms) = x :: xs ∧
      tinyFixedSetAddOne (tinyBytes m ms) target =
        some ⟨some (tinyBytes x xs), ms.length + 2, m.length⟩ := by
  obtain ⟨hroom, -⟩ := first_tinyBytes m ms
  rw [tinyFixedSetAddOne, tinyHead_tinyBytes hfixed, some_bind]
  simp only
  rw [if_neg (not_not.2 hlen), if_neg (by omega), tinyFixedSetContains_tinyBytes hfixed,
    decodeWidth_tinyBytes hfixed]
  cases hinsert : insertMember target (m :: ms) with
  | nil =>
    have hmem : target ∈ insertMember target (m :: ms) := (mem_orderedInsert _).2 (.inl rfl)
    simp [hinsert] at hmem
  | cons x xs => exact ⟨x, xs, rfl, by simp [h, hinsert]⟩

end Tiny

theorem insertMember_cons (target m : Bytes) (ms : List Bytes) :
    insertMember target (m :: ms) =
      if target < m then target :: m :: ms else m :: insertMember target ms :=
  orderedInsert_cons ..

/-! ## How much the front-coded form grows -/

/-- A front-coded member takes at most one byte more than its width. -/
theorem front_length_le {last m : Bytes} {width : Nat} (hm : m.length = width)
    (hlast : last.length = width) :
    (putUvarint (commonPrefix last m) ++ m.drop (commonPrefix last m)).length ≤ width + 1 := by
  have hshared := commonPrefix_le_left last m
  have hbytes : (putUvarint (commonPrefix last m)).length ≤ commonPrefix last m + 1 :=
    (length_putUvarintAux_le maxVarintLen64 _).2
  rw [length_append, length_drop]
  omega

variable {ms : List Bytes}

theorem frontCode_insert_le {last target : Bytes} {width : Nat}
    (hwidth : ∀ x ∈ last :: ms, x.length = width) (htarget : target.length = width)
    (hsorted : (last :: ms).Pairwise (· < ·)) (hlast : last < target) (h : target ∉ ms) :
    (frontCode last (insertMember target ms)).length ≤ (frontCode last ms).length + width + 1 := by
  induction ms generalizing last with
  | nil =>
    have := front_length_le htarget (hwidth last (mem_cons_self ..))
    simpa [insertMember, frontCode] using this
  | cons m ms ih =>
    obtain ⟨hlt, hsorted⟩ := pairwise_cons.1 hsorted
    obtain ⟨hlastLen, hwidth⟩ := forall_mem_cons.1 hwidth
    have hm : m.length = width := hwidth m (mem_cons_self ..)
    rw [insertMember_cons]
    by_cases hbefore : target < m
    · -- one of the two new lengths is the old one
      have hfirst := front_length_le htarget hlastLen
      have hsecond := front_length_le hm htarget
      rw [if_pos hbefore]
      simp only [frontCode, length_append, length_drop] at hfirst hsecond ⊢
      rcases commonPrefix_between hlast hbefore with heq | heq <;> rw [heq] <;> omega
    · have hafter : m < target :=
        lt_of_le_of_ne (not_lt.1 hbefore) fun heq => h (heq ▸ mem_cons_self ..)
      have htail := ih hwidth hsorted hafter fun hmem => h (.tail _ hmem)
      rw [if_neg hbefore]
      simp only [frontCode, length_append]
      omega

theorem length_putUvarint_of_lt {n : Nat} (h : n < 128) : (putUvarint n).length = 1 := by
  simp [putUvarint, maxVarintLen64, putUvarintAux, h]

/-- Below 128 members the form grows by at most the width and one byte. -/
theorem tinyBytes_insert_le {m x target : Bytes} {xs : List Bytes} (hfixed : Fixed m ms)
    (htarget : target.length = m.length) (h : target ∉ m :: ms)
    (hinsert : insertMember target (m :: ms) = x :: xs) (hcount : ms.length + 2 < 128) :
    (tinyBytes x xs).length ≤ (tinyBytes m ms).length + m.length + 1 := by
  have hlength : xs.length = ms.length + 1 := by
    have hlen := congrArg length hinsert
    rw [insertMember, orderedInsert_length, length_cons, length_cons] at hlen
    omega
  have hold := length_tinyBytes m ms
  have hnew := length_tinyBytes x xs
  rw [tinyStart, length_putUvarint_of_lt (by omega)] at hold hnew
  rw [insertMember_cons] at hinsert
  by_cases hbefore : target < m
  · rw [if_pos hbefore] at hinsert
    obtain ⟨rfl, rfl⟩ := cons.inj hinsert
    have hfront := front_length_le (show m.length = m.length from rfl) htarget
    rw [frontCode, length_append, htarget] at hnew
    omega
  · rw [if_neg hbefore] at hinsert
    obtain ⟨rfl, rfl⟩ := cons.inj hinsert
    have hafter : m < target :=
      lt_of_le_of_ne (not_lt.1 hbefore) fun heq => h (heq ▸ mem_cons_self ..)
    have hfront := frontCode_insert_le hfixed.width htarget hfixed.sorted hafter
      fun hmem => h (.tail _ hmem)
    omega

theorem pairwise_insertMember {target : Bytes} (hsorted : ms.Pairwise (· < ·))
    (h : target ∉ ms) : (insertMember target ms).Pairwise (· < ·) := by
  unfold insertMember
  induction ms with
  | nil => simp
  | cons m ms ih =>
    obtain ⟨hm, hsorted⟩ := pairwise_cons.1 hsorted
    rw [orderedInsert_cons]
    by_cases hlt : target < m
    · rw [if_pos hlt]
      exact pairwise_cons.2 ⟨by
        rintro x (_ | ⟨_, hx⟩)
        · exact hlt
        · exact hlt.trans (hm x hx), pairwise_cons.2 ⟨hm, hsorted⟩⟩
    · rw [if_neg hlt]
      refine pairwise_cons.2 ⟨fun x hx => ?_, ih hsorted fun hmem => h (.tail _ hmem)⟩
      rcases (mem_orderedInsert _).1 hx with rfl | hx
      · exact lt_of_le_of_ne (not_lt.1 hlt) fun heq => h (heq ▸ .head _)
      · exact hm x hx

/-! ## The direct operations against the members -/

/-- Adding a member to the members themselves: whether it is new, and the members then. -/
def membersAddOne (ms : List Bytes) (target : Bytes) : Bool × List Bytes :=
  if target ∈ ms then (false, ms) else (true, insertMember target ms)

/-- The insertion on the bytes says the same: whether the member is new, the number of members and
the form they have now. -/
def TinyAdd.Reports (data : Bytes) (r : TinyAdd) (members : Bool × List Bytes) : Prop :=
  r.updated.isSome = members.1 ∧ r.count = members.2.length ∧
    encodeTinyFixedSet members.2 = some (r.updated.getD data)

theorem encodeTinyFixedSet_eq {data : Bytes} (h : encodeTinyFixedSet ms = some data) :
    ∃ m xs, ms = m :: xs ∧ xs ≠ [] ∧ data = tinyBytes m xs ∧ ∀ x ∈ ms, x.length = m.length := by
  unfold encodeTinyFixedSet at h
  split at h
  · split_ifs at h with hwidth
    cases h
    exact ⟨_, _, rfl, cons_ne_nil _ _, rfl, forall_mem_cons.2 ⟨rfl, hwidth⟩⟩
  · cases h

theorem encodeTinyFixedSet_cons {x : Bytes} {xs : List Bytes} (hne : xs ≠ [])
    (hwidth : ∀ y ∈ xs, y.length = x.length) :
    encodeTinyFixedSet (x :: xs) = some (tinyBytes x xs) := by
  cases xs with
  | nil => exact absurd rfl hne
  | cons y ys => rw [encodeTinyFixedSet, if_pos hwidth]

/-- The insertion on the bytes is the insertion of a member for targets of the set's width only:
for any other it reports what it reports for a member that is there. -/
theorem tinyFixedSetAddOne_tinyBytes {m : Bytes} (h : Fixed m ms) (target : Bytes) :
    ∃ r, tinyFixedSetAddOne (tinyBytes m ms) target = some r ∧
      (r.Reports (tinyBytes m ms) (membersAddOne (m :: ms) target) ↔
        target.length = m.length) := by
  by_cases hmem : target ∈ m :: ms
  · have hencode := encodeTinyFixedSet_cons h.several fun y hy => h.width y (.tail _ hy)
    refine ⟨_, tinyFixedSetAddOne_of_mem h hmem, fun _ => h.width _ hmem, fun _ => ?_⟩
    rw [membersAddOne, if_pos hmem]
    exact ⟨rfl, rfl, hencode⟩
  · rw [membersAddOne, if_neg hmem]
    by_cases hlen : target.length = m.length
    · obtain ⟨x, xs, hinsert, hadd⟩ := tinyFixedSetAddOne_of_notMem h hlen hmem
      refine ⟨_, hadd, fun _ => hlen, fun _ => ?_⟩
      have hsize : (x :: xs).length = ms.length + 2 := by
        rw [← hinsert, insertMember, orderedInsert_length, length_cons]
      have hwidth : ∀ y ∈ x :: xs, y.length = m.length := by
        rw [← hinsert]
        intro y hy
        rcases (mem_orderedInsert _).1 hy with rfl | hy
        · exact hlen
        · exact h.width y hy
      have hne : xs ≠ [] := by
        rintro rfl
        simp at hsize
      rw [hinsert]
      exact ⟨rfl, hsize.symm, encodeTinyFixedSet_cons hne fun y hy =>
        (hwidth y (.tail _ hy)).trans (hwidth x (.head _)).symm⟩
    · refine ⟨⟨none, ms.length + 1, m.length⟩, ?_, fun hreports => ?_, fun heq => absurd heq hlen⟩
      · rw [tinyFixedSetAddOne, tinyHead_tinyBytes h]
        exact if_pos hlen
      · exact absurd hreports.1 (by simp)

/-- The decoder and the lookup make of an encoded set what its members show, and so does the
insertion exactly for targets of the width of the members. -/
theorem tiny_operations_agree {data : Bytes} (hsorted : ms.Pairwise (· < ·))
    (hcount : ms.length ≤ maxPackedSetBytes) (hwide : ∀ m ∈ ms, m.length ≤ maxPackedSetBytes)
    (h : encodeTinyFixedSet ms = some data) :
    decodeTinyFixedSet data = some ms ∧ ∀ target,
      tinyFixedSetContains data target = some (decide (target ∈ ms)) ∧
      ∃ r, tinyFixedSetAddOne data target = some r ∧
        (r.Reports data (membersAddOne ms target) ↔ target.length = (ms.headD []).length) := by
  obtain ⟨m, xs, rfl, hne, rfl, hwidth⟩ := encodeTinyFixedSet_eq h
  have hfixed : Fixed m xs := ⟨hsorted, hwidth, hne, hcount, hwide m (.head _)⟩
  exact ⟨decodeTinyFixedSet_tinyBytes hfixed, fun target =>
    ⟨tinyFixedSetContains_tinyBytes hfixed target, tinyFixedSetAddOne_tinyBytes hfixed target⟩⟩

theorem tiny_operations_agree_pair :
    ∃ r, tinyFixedSetAddOne (tinyBytes [1, 2] [[1, 4]]) [1, 3] = some r ∧
      r.Reports (tinyBytes [1, 2] [[1, 4]]) (true, [[1, 2], [1, 3], [1, 4]]) := by
  obtain ⟨r, hr, hreports⟩ :=
    ((@tiny_operations_agree [[1, 2], [1, 4]] _ (by decide) (by decide) (by decide) rfl).2 [1, 3]).2
  exact ⟨r, hr, hreports.2 rfl⟩

/-- The encoder has no limit, the readers have one. -/
theorem wide_members_refused : ∃ ms data, ms.Pairwise (· < ·) ∧
    encodeTinyFixedSet ms = some data ∧ decodeTinyFixedSet data = none := by
  obtain ⟨z, hz⟩ : ∃ z : Bytes, z.length = maxPackedSetBytes := ⟨replicate _ 0, length_replicate⟩
  refine ⟨[z ++ [0], z ++ [1]], _, ?_, if_pos (by simp), ?_⟩
  · exact pairwise_pair.2 (append_left_lt (by decide))
  · obtain ⟨⟨hfirst, hsecond⟩, -⟩ := hasAt_tinyBytes (z ++ [0]) [z ++ [1]]
    rw [length_append, hz] at hsecond
    rw [decodeTinyFixedSet, tinyHead, if_neg (by simp [tinyBytes_take]),
      readSetUvarint_of_hasAt (n := 2) (by decide) hfirst]
    simp only [some_bind]
    rw [if_neg (by decide), show 2 = [z ++ [1]].length + 1 from rfl,
      readSetUvarint_of_hasAt (by decide) hsecond]
    rfl

/-- `b` is no member of `aaaa` and `aaab`, and adding it to their bytes says that it is there; and
the readers refuse sets that the encoder accepts. -/
theorem tiny_operations_differ :
    (∃ data, encodeTinyFixedSet [ascii "aaaa", ascii "aaab"] = some data ∧
      tinyFixedSetAddOne data (ascii "b") = some ⟨none, 2, 4⟩ ∧
      membersAddOne [ascii "aaaa", ascii "aaab"] (ascii "b") =
        (true, [ascii "aaaa", ascii "aaab", ascii "b"])) ∧
    ∃ ms data, ms.Pairwise (· < ·) ∧ encodeTinyFixedSet ms = some data ∧
      decodeTinyFixedSet data = none :=
  ⟨⟨_, rfl, by decide +kernel, by decide +kernel⟩, wide_members_refused⟩

end Sets
end SnugKV
