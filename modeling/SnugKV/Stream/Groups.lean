import SnugKV.Stream.Entry

/-!
# Groups — consumer groups of a stream and their packed form

`engine/stream_group_state.go`.  The stored part of a stream holds its consumer groups: for each
the last delivered id, a read counter, the consumers, and the pending entries with their owners.

* `appendStreamGroups` — checks and packs a list of groups;
* `readStreamGroups` — reads it back, for the three versions of the format;
* `readStreamGroups_of_packed` — what was packed reads back, in normal form.

All refusals of the packer and of the reader are `none`; the commands turn them into one error.
-/

namespace SnugKV
namespace Stream

open Lib List

/-- `maxPackedStreamBytes`. -/
def maxPackedStreamBytes : Nat := 32 * 2 ^ 20

structure Consumer where
  name : Bytes
  seenAt : Int64
  activeAt : Int64
  deriving DecidableEq, Repr

structure Pending where
  id : StreamID
  consumer : Bytes
  deliveredAt : Int64
  deliveries : UInt64
  deriving DecidableEq, Repr

structure Group where
  name : Bytes
  lastDeliveredID : StreamID
  entriesRead : Int64
  consumers : List Consumer
  pending : List Pending
  deriving DecidableEq, Repr

/-! ## Packing -/

/-- `encodeEntriesRead`. -/
def encodeEntriesRead (value : Int64) : Nat :=
  if value < 0 then 2 ^ 64 - 1 else value.toNatClampNeg

/-- `decodeEntriesRead`. -/
def decodeEntriesRead (value : Nat) : Option Int64 :=
  if value = 2 ^ 64 - 1 then some (-1)
  else if value > 2 ^ 63 - 1 then none
  else some (Int64.ofNat value)

def consumerBytes (c : Consumer) : Bytes :=
  stringBytes c.name ++ putUvarint c.seenAt.toNatClampNeg ++ putUvarint c.activeAt.toNatClampNeg

def pendingBytes (p : Pending) : Bytes :=
  idBytes p.id ++ stringBytes p.consumer ++ putUvarint p.deliveredAt.toNatClampNeg ++
    putUvarint p.deliveries.toNat

/-- The pending entries in the order they are packed. -/
def sortPending (ps : List Pending) : List Pending :=
  ps.insertionSort fun a b => a.id ≤ b.id

def groupBytes (g : Group) : Bytes :=
  stringBytes g.name ++ idBytes g.lastDeliveredID ++
    putUvarint (encodeEntriesRead g.entriesRead) ++
    putUvarint g.consumers.length ++ g.consumers.flatMap consumerBytes ++
    putUvarint g.pending.length ++ (sortPending g.pending).flatMap pendingBytes

def groupsBytes (gs : List Group) : Bytes :=
  putUvarint gs.length ++ gs.flatMap groupBytes

/-- No consumer twice, no negative time, and every owner of a pending entry is a consumer. -/
structure Group.Valid (g : Group) : Prop where
  consumers : (g.consumers.map Consumer.name).Nodup
  times : ∀ c ∈ g.consumers, 0 ≤ c.seenAt ∧ 0 ≤ c.activeAt
  ascending : (sortPending g.pending).Pairwise fun a b => a.id < b.id
  delivered : ∀ p ∈ g.pending, 0 ≤ p.deliveredAt
  owners : ∀ p ∈ g.pending, p.consumer ≠ [] → p.consumer ∈ g.consumers.map Consumer.name

instance (g : Group) : Decidable g.Valid :=
  decidable_of_iff
    ((g.consumers.map Consumer.name).Nodup ∧
      (∀ c ∈ g.consumers, 0 ≤ c.seenAt ∧ 0 ≤ c.activeAt) ∧
      ((sortPending g.pending).Pairwise fun a b => a.id < b.id) ∧
      (∀ p ∈ g.pending, 0 ≤ p.deliveredAt) ∧
      ∀ p ∈ g.pending, p.consumer ≠ [] → p.consumer ∈ g.consumers.map Consumer.name)
    ⟨fun h => ⟨h.1, h.2.1, h.2.2.1, h.2.2.2.1, h.2.2.2.2⟩,
      fun h => ⟨h.1, h.2, h.3, h.4, h.5⟩⟩

structure GroupsValid (gs : List Group) : Prop where
  names : (gs.map Group.name).Nodup
  groups : ∀ g ∈ gs, g.Valid

instance (gs : List Group) : Decidable (GroupsValid gs) :=
  decidable_of_iff ((gs.map Group.name).Nodup ∧ ∀ g ∈ gs, g.Valid)
    ⟨fun h => ⟨h.1, h.2⟩, fun h => ⟨h.1, h.2⟩⟩

/-- The size is checked after every group, so not at all without one. -/
def appendStreamGroups (dst : Bytes) (gs : List Group) : Option Bytes :=
  let out := dst ++ groupsBytes gs
  if ¬ GroupsValid gs then none
  else if gs ≠ [] ∧ out.length > maxPackedStreamBytes then none
  else some out

/-! ## Reading -/

/-- `n` records one behind the other. -/
def readMany {α : Type} (read : Nat → Option (α × Nat)) : Nat → Nat → Option (List α × Nat)
  | 0, off => some ([], off)
  | n + 1, off => do
      let (a, off) ← read off
      let (rest, off) ← readMany read n off
      some (a :: rest, off)

/-- A time: a varint within `int64`. -/
def readTime (data : Bytes) (off : Nat) : Option (Int64 × Nat) := do
  let (t, off) ← chunkUvarint data off
  if t > 2 ^ 63 - 1 then none else some (Int64.ofNat t, off)

def readConsumer (data : Bytes) (version : Nat) (off : Nat) : Option (Consumer × Nat) := do
  let (name, off) ← chunkString data off
  let (seenAt, off) ← readTime data off
  if version ≥ 3 then
    let (activeAt, off) ← readTime data off
    some (⟨name, seenAt, activeAt⟩, off)
  else some (⟨name, seenAt, seenAt⟩, off)

def readPending (data : Bytes) (off : Nat) : Option (Pending × Nat) := do
  let id ← streamEntryIDAt data off
  let (consumer, off) ← chunkString data (off + 16)
  let (deliveredAt, off) ← readTime data off
  let (deliveries, off) ← chunkUvarint data off
  some (⟨id, consumer, deliveredAt, UInt64.ofNat deliveries⟩, off)

def readCount (data : Bytes) (off : Nat) : Option (Nat × Nat) := do
  let (n, off) ← chunkUvarint data off
  if n > maxPackedStreamBytes then none else some (n, off)

def readGroup (data : Bytes) (version : Nat) (off : Nat) : Option (Group × Nat) := do
  let (name, off) ← chunkString data off
  let lastID ← streamEntryIDAt data off
  let (raw, off) ← chunkUvarint data (off + 16)
  let entriesRead ← decodeEntriesRead raw
  let (n, off) ← readCount data off
  let (consumers, off) ← readMany (readConsumer data version) n off
  if ¬ (consumers.map Consumer.name).Nodup then none
  else
    let (n, off) ← readCount data off
    let (pending, off) ← readMany (readPending data) n off
    if ¬ pending.Pairwise (fun a b => a.id < b.id) then none
    else if ¬ ∀ p ∈ pending, p.consumer ≠ [] → p.consumer ∈ consumers.map Consumer.name then none
    else some (⟨name, lastID, entriesRead, consumers, pending⟩, off)

def readStreamGroups (data : Bytes) (off : Nat) (version : Nat) : Option (List Group × Nat) := do
  let (n, off) ← readCount data off
  let (groups, off) ← readMany (readGroup data version) n off
  if ¬ (groups.map Group.name).Nodup then none else some (groups, off)

/-! ## What was packed reads back -/

/-- The form in which a group comes back: pending entries sorted, an unknown counter as −1. -/
def Group.normalize (g : Group) : Group :=
  { g with
    entriesRead := if g.entriesRead < 0 then -1 else g.entriesRead
    pending := sortPending g.pending }

variable {α : Type} {bytes : α → Bytes} {as : List α}

theorem readMany_map_of_hasAt {β : Type} {read : Nat → Option (β × Nat)}
    {f : α → β} {data : Bytes} {off : Nat} (h : HasAt data off (as.flatMap bytes))
    (hread : ∀ a ∈ as, ∀ o, HasAt data o (bytes a) → read o = some (f a, o + (bytes a).length)) :
    readMany read as.length off = some (as.map f, off + (as.flatMap bytes).length) := by
  induction as generalizing off with
  | nil => simp [readMany]
  | cons a as ih =>
    rw [flatMap_cons] at h ⊢
    rcases hasAt_append.1 h with ⟨ha, has⟩
    have hrest := ih has fun x hx => hread x (mem_cons_of_mem _ hx)
    simp only [length_cons, readMany, hread a (mem_cons_self ..) off ha,
      some_bind, hrest, length_append, add_assoc,
      map_cons]

theorem readMany_of_hasAt {read : Nat → Option (α × Nat)}
    {data : Bytes} {off : Nat} (h : HasAt data off (as.flatMap bytes))
    (hread : ∀ a ∈ as, ∀ o, HasAt data o (bytes a) → read o = some (a, o + (bytes a).length)) :
    readMany read as.length off = some (as, off + (as.flatMap bytes).length) := by
  simpa using readMany_map_of_hasAt (f := id) h hread

section Reading

variable {data : Bytes} {off : Nat}

theorem ofNat_toNatClampNeg {t : Int64} (h : 0 ≤ t) : Int64.ofNat t.toNatClampNeg = t := by
  refine Int64.toInt.inj ?_
  rw [Int64.toInt_ofNat_of_lt t.toNatClampNeg_lt, Int64.cast_toNatClampNeg t h]

theorem readTime_of_hasAt {t : Int64} (h0 : 0 ≤ t)
    (h : HasAt data off (putUvarint t.toNatClampNeg)) :
    readTime data off = some (t, off + (putUvarint t.toNatClampNeg).length) := by
  have hn := t.toNatClampNeg_lt
  rw [readTime, chunkUvarint_of_hasAt (by omega) h]
  simp only [some_bind]
  rw [if_neg (by omega), ofNat_toNatClampNeg h0]

theorem length_le_stringBytes (s : Bytes) : s.length ≤ (stringBytes s).length := by
  simp [stringBytes]

theorem readConsumer_of_hasAt {c : Consumer} (hsize : (consumerBytes c).length < 2 ^ 63)
    (htimes : 0 ≤ c.seenAt ∧ 0 ≤ c.activeAt) (h : HasAt data off (consumerBytes c)) :
    readConsumer data 3 off = some (c, off + (consumerBytes c).length) := by
  rcases hasAt_append.1 h with ⟨hfront, hactive⟩
  rcases hasAt_append.1 hfront with ⟨hname, hseen⟩
  have hlen : c.name.length < 2 ^ 63 := by
    have := length_le_stringBytes c.name
    simp only [consumerBytes, length_append] at hsize
    omega
  rw [readConsumer, chunkString_of_hasAt hlen hname]
  simp only [some_bind]
  rw [readTime_of_hasAt htimes.1 hseen]
  simp only [some_bind, ge_iff_le, le_refl, if_true]
  rw [length_append, ← add_assoc] at hactive
  rw [readTime_of_hasAt htimes.2 hactive]
  simp [consumerBytes, add_assoc]

theorem readPending_of_hasAt {p : Pending} (hsize : (pendingBytes p).length < 2 ^ 63)
    (htime : 0 ≤ p.deliveredAt) (h : HasAt data off (pendingBytes p)) :
    readPending data off = some (p, off + (pendingBytes p).length) := by
  rcases hasAt_append.1 h with ⟨h₁, hcount⟩
  rcases hasAt_append.1 h₁ with ⟨h₂, htimeAt⟩
  rcases hasAt_append.1 h₂ with ⟨hid, hconsumer⟩
  rw [length_idBytes] at hconsumer
  rw [length_append, length_idBytes, ← add_assoc] at htimeAt
  rw [length_append, length_append, length_idBytes, ← add_assoc, ← add_assoc] at hcount
  have hlen : p.consumer.length < 2 ^ 63 := by
    have := length_le_stringBytes p.consumer
    simp only [pendingBytes, length_append] at hsize
    omega
  rw [readPending, streamIDAt_of_hasAt hid]
  simp only [some_bind]
  rw [chunkString_of_hasAt hlen hconsumer]
  simp only [some_bind]
  rw [readTime_of_hasAt htime htimeAt]
  simp only [some_bind]
  rw [chunkUvarint_of_hasAt p.deliveries.toNat_lt hcount]
  simp [pendingBytes, length_idBytes, add_assoc]

theorem readCount_of_hasAt {n : Nat} (hn : n ≤ maxPackedStreamBytes)
    (h : HasAt data off (putUvarint n)) :
    readCount data off = some (n, off + (putUvarint n).length) := by
  rw [readCount, chunkUvarint_of_hasAt (by unfold maxPackedStreamBytes at hn; omega) h]
  simp only [some_bind]
  rw [if_neg (by omega)]

theorem decodeEntriesRead_encode (value : Int64) :
    decodeEntriesRead (encodeEntriesRead value) = some (if value < 0 then -1 else value) := by
  unfold decodeEntriesRead encodeEntriesRead
  by_cases hneg : value < 0
  · simp [hneg]
  · have hlt := value.toNatClampNeg_lt
    rw [if_neg hneg, if_neg hneg, if_neg (by omega), if_neg (by omega),
      ofNat_toNatClampNeg (Int64.not_lt.1 hneg)]

theorem encodeEntriesRead_lt (value : Int64) : encodeEntriesRead value < 2 ^ 64 := by
  unfold encodeEntriesRead
  have hlt := value.toNatClampNeg_lt
  split_ifs <;> omega

end Reading

/-- As many records as bytes at the most. -/
theorem length_le_length_flatMap (hpos : ∀ a, 0 < (bytes a).length)
    (as : List α) : as.length ≤ (as.flatMap bytes).length := by
  induction as with
  | nil => simp
  | cons a as ih =>
    have := hpos a
    rw [flatMap_cons, length_append, length_cons]
    omega

theorem length_le_flatMap_of_mem {a : α}
    (ha : a ∈ as) : (bytes a).length ≤ (as.flatMap bytes).length := by
  rcases append_of_mem ha with ⟨xs, ys, rfl⟩
  simp only [flatMap_append, flatMap_cons, length_append]
  omega

theorem consumerBytes_pos (c : Consumer) : 0 < (consumerBytes c).length := by
  have := length_putUvarint_pos c.seenAt.toNatClampNeg
  simp only [consumerBytes, length_append]
  omega

theorem pendingBytes_pos (p : Pending) : 0 < (pendingBytes p).length := by
  simp only [pendingBytes, length_append, length_idBytes]
  omega

theorem groupBytes_pos (g : Group) : 0 < (groupBytes g).length := by
  simp only [groupBytes, length_append, length_idBytes]
  omega

/-! ## A group, and a list of groups -/

section Groups

variable {data : Bytes} {off : Nat}

theorem perm_sortPending (ps : List Pending) : (sortPending ps).Perm ps := perm_insertionSort _ ps

theorem mem_sortPending {ps : List Pending} {p : Pending} : p ∈ sortPending ps ↔ p ∈ ps :=
  (perm_sortPending ps).mem_iff

theorem length_sortPending (ps : List Pending) : (sortPending ps).length = ps.length :=
  (perm_sortPending ps).length_eq

theorem readGroup_of_hasAt {g : Group} (hvalid : g.Valid)
    (hsize : (groupBytes g).length ≤ maxPackedStreamBytes) (h : HasAt data off (groupBytes g)) :
    readGroup data 3 off = some (g.normalize, off + (groupBytes g).length) := by
  have hmax : maxPackedStreamBytes < 2 ^ 63 := by decide
  obtain ⟨hname, hid, hread, hccount, hconsumers, hpcount, hpending⟩ :
      HasAt data off (stringBytes g.name) ∧
      HasAt data (off + (stringBytes g.name).length) (idBytes g.lastDeliveredID) ∧
      HasAt data (off + (stringBytes g.name).length + 16)
        (putUvarint (encodeEntriesRead g.entriesRead)) ∧
      HasAt data (off + (stringBytes g.name).length + 16 +
        (putUvarint (encodeEntriesRead g.entriesRead)).length)
        (putUvarint g.consumers.length) ∧
      HasAt data (off + (stringBytes g.name).length + 16 +
        (putUvarint (encodeEntriesRead g.entriesRead)).length +
        (putUvarint g.consumers.length).length) (g.consumers.flatMap consumerBytes) ∧
      HasAt data (off + (stringBytes g.name).length + 16 +
        (putUvarint (encodeEntriesRead g.entriesRead)).length +
        (putUvarint g.consumers.length).length + (g.consumers.flatMap consumerBytes).length)
        (putUvarint g.pending.length) ∧
      HasAt data (off + (stringBytes g.name).length + 16 +
        (putUvarint (encodeEntriesRead g.entriesRead)).length +
        (putUvarint g.consumers.length).length + (g.consumers.flatMap consumerBytes).length +
        (putUvarint g.pending.length).length) ((sortPending g.pending).flatMap pendingBytes) := by
    simp only [groupBytes, hasAt_append, length_append, length_idBytes, ← add_assoc] at h
    tauto
  simp only [groupBytes, length_append, length_idBytes] at hsize
  have hlen := length_le_stringBytes g.name
  have hccountLe := length_le_length_flatMap consumerBytes_pos g.consumers
  have hpcountLe := length_le_length_flatMap pendingBytes_pos (sortPending g.pending)
  rw [length_sortPending] at hpcountLe
  have hcs := readMany_of_hasAt hconsumers fun c hc o ho => by
    have := @length_le_flatMap_of_mem _ consumerBytes _ _ hc
    exact readConsumer_of_hasAt (by omega) (hvalid.times c hc) ho
  have hps := readMany_of_hasAt hpending fun p hp o ho => by
    have := @length_le_flatMap_of_mem _ pendingBytes _ _ hp
    exact readPending_of_hasAt (by omega) (hvalid.delivered p (mem_sortPending.1 hp)) ho
  rw [length_sortPending] at hps
  have howners : ∀ p ∈ sortPending g.pending, p.consumer ≠ [] →
      p.consumer ∈ g.consumers.map Consumer.name :=
    fun p hp => hvalid.owners p (mem_sortPending.1 hp)
  rw [readGroup, chunkString_of_hasAt (by omega) hname]
  simp only [some_bind, streamIDAt_of_hasAt hid,
    chunkUvarint_of_hasAt (encodeEntriesRead_lt _) hread, decodeEntriesRead_encode,
    readCount_of_hasAt (show g.consumers.length ≤ maxPackedStreamBytes by omega) hccount, hcs,
    hvalid.consumers, not_true, if_false,
    readCount_of_hasAt (show g.pending.length ≤ maxPackedStreamBytes by omega) hpcount, hps,
    hvalid.ascending]
  rw [if_neg (not_not.2 howners)]
  simp [Group.normalize, groupBytes, length_idBytes, add_assoc]

theorem map_name_normalize (gs : List Group) :
    (gs.map Group.normalize).map Group.name = gs.map Group.name := by
  simp [Group.normalize, Function.comp_def]

theorem readStreamGroups_of_hasAt {gs : List Group} (hvalid : GroupsValid gs)
    (hsize : (groupsBytes gs).length ≤ maxPackedStreamBytes)
    (h : HasAt data off (groupsBytes gs)) :
    readStreamGroups data off 3 = some (gs.map Group.normalize, off + (groupsBytes gs).length) := by
  rcases hasAt_append.1 h with ⟨hcount, hgroups⟩
  rw [groupsBytes, length_append] at hsize
  have hle := length_le_length_flatMap groupBytes_pos gs
  have hgs : readMany (readGroup data 3) gs.length (off + (putUvarint gs.length).length) =
      some (gs.map Group.normalize,
        off + (putUvarint gs.length).length + (gs.flatMap groupBytes).length) := by
    refine readMany_map_of_hasAt hgroups fun g hg o ho => ?_
    have := @length_le_flatMap_of_mem _ groupBytes _ _ hg
    exact readGroup_of_hasAt (hvalid.groups g hg) (by omega) ho
  rw [readStreamGroups, readCount_of_hasAt (by omega) hcount]
  simp only [some_bind, hgs, map_name_normalize, hvalid.names,
    not_true, if_false, groupsBytes, length_append, add_assoc]

end Groups

end Stream
end SnugKV
