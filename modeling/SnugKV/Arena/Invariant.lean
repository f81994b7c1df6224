import SnugKV.Arena.Classes

/-!
# Arena invariant — who owns which block

Every block of the arena has one owner: a reference that is still live, the free list of its
bucket, or, in the middle of a call, the call itself (`pend`).  `Inv` says that owned blocks
lie inside their segments and apart from each other, that live blocks hold the value and the
generation of their reference, that free blocks are chained behind zero headers, and that the
start of a block, once a reference has named it, stays the start of a block or a hole.

Each stage of `alloc` and `release` moves one block from one owner to the next and gets a lemma
of its own; no stage touches the bytes of a block that is not its own.
-/

namespace SnugKV
namespace Arena

open Lib List

/-! ## Blocks and references -/

structure Block where
  seg : Nat
  off : Nat
  bucket : Nat
  size : Nat
  deriving DecidableEq, Repr

def Block.Apart (b c : Block) : Prop :=
  b.seg ≠ c.seg ∨ b.off + b.size ≤ c.off ∨ c.off + c.size ≤ b.off

variable {b : Block} {a : Arena}

theorem Block.Apart.symm {c : Block} (h : b.Apart c) : c.Apart b := by
  rcases h with h | h | h
  · exact Or.inl h.symm
  · exact Or.inr (Or.inr h)
  · exact Or.inr (Or.inl h)

instance : Std.Symm Block.Apart := ⟨fun _ _ h => h.symm⟩

/-- The block a reference stands for; an inline or empty reference has none. -/
def Ref.block (r : Ref) : Option Block :=
  if r.isInline ∨ r.generation = 0 then none
  else (sizeClass r.length).map fun c => ⟨r.segment, r.offset, c.1, c.2⟩

/-- A reference handed out for a value, with the number of generations drawn by then. -/
structure Handed where
  ref : Ref
  value : Bytes
  draw : Nat
  deriving DecidableEq, Repr

def blocksOf (hs : List Handed) : List Block :=
  hs.filterMap (fun h => h.ref.block)

/-! ## Memory after a change -/

section Memory

variable {a : Arena} {seg : Nat}

theorem lt_of_data (h : a.data seg ≠ []) : seg < a.segments.length := by
  by_contra hge
  exact h (by simp [data, getElem?_eq_none (Nat.le_of_not_lt hge)])

theorem data_setData (hseg : seg < a.segments.length) (bytes : Bytes) (i : Nat) :
    (a.setData seg bytes).data i = if i = seg then bytes else a.data i := by
  by_cases hi : i = seg
  · subst hi
    simp [data, setData, hseg]
  · simp [data, setData, hi, Ne.symm hi]

@[simp] theorem capacity_setData (bytes : Bytes) (i : Nat) :
    (a.setData seg bytes).capacity i = a.capacity i := by
  simp only [capacity, setData, getElem?_modify]
  by_cases hi : seg = i
  · cases a.segments[i]? <;> simp [hi]
  · cases a.segments[i]? <;> simp [hi]

@[simp] theorem length_setData (bytes : Bytes) :
    (a.setData seg bytes).segments.length = a.segments.length := by
  simp [setData]

theorem getElem?_setSegment (hseg : seg < a.segments.length) (s : Segment) (i : Nat) :
    (a.setSegment seg s).segments[i]? = if i = seg then some s else a.segments[i]? := by
  by_cases hi : i = seg
  · subst hi
    simp [setSegment, hseg]
  · simp [setSegment, hi, Ne.symm hi]

theorem getElem?_addSegment (s : Segment) (i : Nat) :
    (a.addSegment s).segments[i]? = if i = a.segments.length then some s else a.segments[i]? := by
  rcases Nat.lt_trichotomy i a.segments.length with h | h | h
  · simp [addSegment, getElem?_append_left h, ne_of_lt h]
  · subst h
    simp [addSegment]
  · rw [if_neg (ne_of_gt h), getElem?_eq_none h.le]
    exact getElem?_eq_none (by simp [addSegment]; omega)

theorem data_of_getElem? {a' : Arena} {s : Segment}
    (h : ∀ i, a'.segments[i]? = if i = seg then some s else a.segments[i]?) (i : Nat) :
    a'.data i = (if i = seg then s.data else a.data i) ∧
      a'.capacity i = (if i = seg then s.cap else a.capacity i) := by
  rw [data, capacity, h]
  split <;> exact ⟨rfl, rfl⟩

end Memory

/-! ## The invariant -/

/-- A free list: each block's second word is the address of the next. -/
def Chain (a : Arena) : Nat → List Block → Prop
  | address, [] => address = 0
  | address, b :: rest =>
    address = (b.seg + 1) * 2 ^ 32 + b.off ∧ Chain a (a.word b.seg (b.off + 8)) rest

theorem address_parts {address : Nat} (h : address = (b.seg + 1) * 2 ^ 32 + b.off)
    (hoff : b.off < segmentBytes) : address / 2 ^ 32 - 1 = b.seg ∧ address % 2 ^ 32 = b.off := by
  unfold segmentBytes at hoff
  omega

theorem Chain.nil_of_zero : ∀ {l : List Block}, Chain a 0 l → l = []
  | [], _ => rfl
  | b :: _, h => by
      have := h.1
      omega

/-- The block `b` holds the value of `h` behind its generation. -/
structure BlockHeld (a : Arena) (h : Handed) (b : Block) : Prop where
  block : h.ref.block = some b
  length : h.ref.length = h.value.length
  drawn : 0 < h.draw
  generation : h.ref.generation = UInt64.ofNat (genOf h.draw)
  header : a.word b.seg b.off = genOf h.draw
  payload : readAt (a.data b.seg) (b.off + 8) h.value.length = h.value
  /-- A block above a segment's size is a segment of its own. -/
  whole : segmentBytes < b.size → b.off = 0 ∧ a.capacity b.seg = b.size ∧
    (a.data b.seg).length = b.size

/-- A live reference is empty, carries its bytes, or has a block. -/
inductive Held (a : Arena) (h : Handed) : Prop where
  | empty : h.ref = Ref.zero → h.value = [] → Held a h
  | inline : h.ref.isInline = true → h.ref.inline = some h.value → Held a h
  | block (b : Block) : BlockHeld a h b → Held a h

variable {h : Handed}

theorem Held.of_block (hh : Held a h) (hblock : h.ref.block = some b) : BlockHeld a h b := by
  rcases hh with ⟨hz, _⟩ | ⟨hi, _⟩ | ⟨c, hc⟩
  · rw [hz] at hblock
    cases hblock
  · simp [Ref.block, hi] at hblock
  · rw [hc.block, Option.some.injEq] at hblock
    exact hblock ▸ hc

/-- The start of a freed block is a hole or still the start of an owned block, and a reference
that got the block since then was drawn later. -/
structure Retired (a : Arena) (live : List Handed) (owned : List Block) (h : Handed)
    (b : Block) : Prop where
  drawn : 0 < h.draw
  generation : h.ref.generation = UInt64.ofNat (genOf h.draw)
  inside : b.seg < a.segments.length
  start : (b.off = 0 ∧ a.data b.seg = []) ∨ ∃ c ∈ owned, c.seg = b.seg ∧ c.off = b.off
  later : ∀ l ∈ live, ∀ c, l.ref.block = some c → c.seg = b.seg → c.off = b.off → h.draw < l.draw

/-- The same blocks with other owners; a reference that is new was drawn later. -/
theorem Retired.owners {live live' : List Handed} {owned owned' : List Block}
    (hr : Retired a live owned h b) (hsub : owned ⊆ owned')
    (hlive : ∀ l ∈ live', l.ref.block ≠ none → l ∈ live ∨ h.draw < l.draw) :
    Retired a live' owned' h b := by
  refine { hr with start := ?_, later := fun l hl c hc hs ho => ?_ }
  · exact hr.start.imp_right fun ⟨c, hc, hstart⟩ => ⟨c, hsub hc, hstart⟩
  · rcases hlive l hl (by simp [hc]) with hl | hlt
    · exact hr.later l hl c hc hs ho
    · exact hlt

structure Inv (a : Arena) (live freed : List Handed) (n : Nat) (free pend : List Block) :
    Prop where
  caps : ∀ i, (a.data i).length ≤ a.capacity i ∧
    (a.capacity i ≤ segmentBytes ∨ (a.data i).length = a.capacity i)
  apart : (blocksOf live ++ free ++ pend).Pairwise Block.Apart
  inside : ∀ b ∈ blocksOf live ++ free ++ pend, b.off + b.size ≤ (a.data b.seg).length ∧
    16 ≤ b.size ∧ b.off < segmentBytes
  held : ∀ h ∈ live, Held a h
  chain : ∀ bucket, Chain a (a.head bucket) (free.filter (fun b => b.bucket = bucket))
  freeBlock : ∀ b ∈ free, b.size = bucketBlock b.bucket ∧ b.bucket ≠ dedicatedBucket ∧
    (b.bucket < freeBucketCount ∧ b.seg < 2 ^ 25) ∧ a.word b.seg b.off = 0
  holes_nodup : a.holes.Nodup
  hole : ∀ s ∈ a.holes, s < a.segments.length ∧ a.data s = [] ∧ a.capacity s = 0
  heads : ∀ f, a.free = some f → f.heads.length = freeBucketCount
  gen : a.generation = genOf n
  draw_le : ∀ h ∈ live ++ freed, h.draw ≤ n
  retired : ∀ h ∈ freed, ∀ b, h.ref.block = some b →
    Retired a live (blocksOf live ++ free ++ pend) h b

theorem inv_empty : Inv empty [] [] 0 [] [] where
  caps := by simp [empty, data, capacity]
  apart := by simp [blocksOf]
  inside := by simp [blocksOf]
  held := by simp
  chain := by simp [Chain, head, empty]
  freeBlock := by simp
  holes_nodup := by simp [holes, empty]
  hole := by simp [holes, empty]
  heads := by simp [empty]
  gen := rfl
  draw_le := by simp
  retired := by simp

section Owners

variable {a : Arena} {live freed : List Handed} {n : Nat} {free pend : List Block}

theorem Inv.apart_pend {b : Block} (h : Inv a live freed n free [b]) {c : Block}
    (hc : c ∈ blocksOf live ++ free) : c.Apart b := by
  have := h.apart
  rw [pairwise_append] at this
  exact this.2.2 c hc b (by simp)

end Owners

/-! ## Frames -/

/-- The bytes of block `b` are the same in both arenas. -/
def SameIn (a a' : Arena) (b : Block) : Prop :=
  ∀ p k, b.off ≤ p → p + k ≤ b.off + b.size →
    readAt (a'.data b.seg) p k = readAt (a.data b.seg) p k

/-- The segment of block `b` has the same size in both arenas. -/
def SameSegment (a a' : Arena) (b : Block) : Prop :=
  a'.capacity b.seg = a.capacity b.seg ∧ (a'.data b.seg).length = (a.data b.seg).length

section Frames

variable {a a' : Arena}

theorem SameIn.word {b : Block} (h : SameIn a a' b) {p : Nat} (hlo : b.off ≤ p)
    (hhi : p + 8 ≤ b.off + b.size) : a'.word b.seg p = a.word b.seg p := by
  rw [Arena.word, Arena.word, h p 8 hlo hhi]

theorem BlockHeld.frame {b : Block} (hb : BlockHeld a h b) (hsame : SameIn a a' b)
    (hseg : segmentBytes < b.size → SameSegment a a' b) : BlockHeld a' h b := by
  have hfit : h.value.length + 8 ≤ b.size := by
    have hblock := hb.block
    unfold Ref.block at hblock
    split_ifs at hblock
    rcases Option.map_eq_some_iff.1 hblock with ⟨⟨_, _⟩, hc, rfl⟩
    have := (sizeClass_spec hc).fits
    rw [hb.length] at this
    exact this
  refine { hb with header := ?_, payload := ?_, whole := ?_ }
  · rw [hsame.word le_rfl (by omega)]
    exact hb.header
  · rw [hsame (b.off + 8) _ (by omega) (by omega)]
    exact hb.payload
  · intro hbig
    rcases hb.whole hbig with ⟨h0, hcap, hlen⟩
    rcases hseg hbig with ⟨hcap', hlen'⟩
    exact ⟨h0, hcap'.trans hcap, hlen'.trans hlen⟩

theorem Held.frame (hh : Held a h)
    (hsame : ∀ b, h.ref.block = some b →
      SameIn a a' b ∧ (segmentBytes < b.size → SameSegment a a' b)) : Held a' h := by
  rcases hh with ⟨hz, hv⟩ | ⟨hi, hv⟩ | ⟨b, hb⟩
  · exact .empty hz hv
  · exact .inline hi hv
  · exact .block b (hb.frame (hsame b hb.block).1 (hsame b hb.block).2)

theorem Chain.frame : ∀ {l : List Block} {address : Nat},
    (∀ b ∈ l, a'.word b.seg (b.off + 8) = a.word b.seg (b.off + 8)) →
      Chain a address l → Chain a' address l
  | [], _, _, h => h
  | b :: rest, _, hw, h => by
      refine ⟨h.1, ?_⟩
      rw [hw b mem_cons_self]
      exact Chain.frame (fun c hc => hw c (mem_cons_of_mem _ hc)) h.2

end Frames

theorem mem_blocksOf {hs : List Handed} :
    b ∈ blocksOf hs ↔ ∃ h ∈ hs, h.ref.block = some b :=
  mem_filterMap

/-- The part of the invariant that speaks about bytes, carried to another arena whose owned
blocks hold the same bytes. -/
theorem Inv.carry {a' : Arena} {live freed : List Handed} {n : Nat} {free pend : List Block}
    (h : Inv a live freed n free pend)
    (hsame : ∀ b ∈ blocksOf live ++ free, SameIn a a' b)
    (hseg : ∀ b ∈ blocksOf live, segmentBytes < b.size → SameSegment a a' b) :
    (∀ g ∈ live, Held a' g) ∧
      (∀ address bucket, Chain a address (free.filter (fun b => b.bucket = bucket)) →
        Chain a' address (free.filter (fun b => b.bucket = bucket))) ∧
      (∀ b ∈ free, a'.word b.seg b.off = 0) := by
  refine ⟨?_, ?_, ?_⟩
  · intro g hg
    refine (h.held g hg).frame fun b hb => ?_
    have hmem : b ∈ blocksOf live := mem_blocksOf.2 ⟨g, hg, hb⟩
    exact ⟨hsame b (mem_append_left _ hmem), hseg b hmem⟩
  · intro address bucket
    refine Chain.frame fun b hb => ?_
    have hfree := mem_of_mem_filter hb
    have h16 := (h.inside b (by simp [hfree])).2.1
    exact (hsame b (mem_append_right _ hfree)).word (by omega) (by omega)
  · intro b hb
    have h16 := (h.inside b (by simp [hb])).2.1
    rw [(hsame b (mem_append_right _ hb)).word le_rfl (by omega)]
    exact (h.freeBlock b hb).2.2.2

/-! ## Stages of an allocation -/

section Stages

variable {a : Arena} {live freed : List Handed} {n : Nat} {free : List Block}

variable {b : Block} {pend : List Block} {bucket : Nat}

variable {n' block cap : Nat} {a' : Arena}

/-- The memory changes while the live and the free blocks keep their bytes: what a stage has to
say about the blocks in the hand of the call, the holes and the generation. -/
theorem Inv.change {pend' : List Block}
    (h : Inv a live freed n free pend)
    (hcaps : ∀ i, (a'.data i).length ≤ a'.capacity i ∧
      (a'.capacity i ≤ segmentBytes ∨ (a'.data i).length = a'.capacity i))
    (hpend : ∀ b ∈ pend', b.off + b.size ≤ (a'.data b.seg).length ∧ 16 ≤ b.size ∧
      b.off < segmentBytes)
    (hapart : (blocksOf live ++ free ++ pend').Pairwise Block.Apart)
    (hsame : ∀ c ∈ blocksOf live ++ free, SameIn a a' c ∧
      (a.data c.seg).length ≤ (a'.data c.seg).length)
    (hseg : ∀ c ∈ blocksOf live, segmentBytes < c.size → SameSegment a a' c)
    (hhead : ∀ k, a'.head k = a.head k)
    (hheads : ∀ f, a'.free = some f → f.heads.length = freeBucketCount)
    (hholes : a'.holes.Nodup ∧
      ∀ s ∈ a'.holes, s < a'.segments.length ∧ a'.data s = [] ∧ a'.capacity s = 0)
    (hgen : a'.generation = genOf n') (hn : n ≤ n')
    (hlen : a.segments.length ≤ a'.segments.length)
    (hempty : ∀ s, a.data s = [] → a'.data s = [] ∨ ∃ b ∈ pend', b.seg = s ∧ b.off = 0)
    (hstart : ∀ d ∈ pend, d ∈ pend' ∨ (d.off = 0 ∧ a'.data d.seg = [])) :
    Inv a' live freed n' free pend' := by
  rcases h.carry (fun c hc => (hsame c hc).1) hseg with ⟨hheld, hchain, hword⟩
  refine
    { caps := hcaps
      apart := hapart
      inside := fun c hc => ?_
      held := hheld
      chain := fun k => hhead k ▸ hchain _ _ (h.chain k)
      freeBlock := fun c hc => ?_
      holes_nodup := hholes.1
      hole := hholes.2
      heads := hheads
      gen := hgen
      draw_le := fun g hg => (h.draw_le g hg).trans hn
      retired := fun g hg c hc => ?_ }
  · rcases mem_append.1 hc with hc | hc
    · rcases h.inside c (mem_append_left _ hc) with ⟨h1, h2, h3⟩
      exact ⟨h1.trans (hsame c hc).2, h2, h3⟩
    · exact hpend c hc
  · rcases h.freeBlock c hc with ⟨h1, h2, h3, _⟩
    exact ⟨h1, h2, h3, hword c hc⟩
  · -- a start that was a hole or a block of the call is one again
    rcases h.retired g hg c hc with ⟨h1, h2, h3, h4, h5⟩
    refine ⟨h1, h2, h3.trans_le hlen, ?_, h5⟩
    rcases h4 with ⟨h0, hnil⟩ | ⟨d, hd, hs, ho⟩
    · rcases hempty c.seg hnil with hnil' | ⟨b, hb, hs, ho⟩
      · exact Or.inl ⟨h0, hnil'⟩
      · exact Or.inr ⟨b, mem_append_right _ hb, hs, ho.trans h0.symm⟩
    · rcases mem_append.1 hd with hd | hd
      · exact Or.inr ⟨d, mem_append_left _ hd, hs, ho⟩
      · rcases hstart d hd with hd' | ⟨h0, hnil⟩
        · exact Or.inr ⟨d, mem_append_right _ hd', hs, ho⟩
        · exact Or.inl ⟨ho.symm.trans h0, hs ▸ hnil⟩

theorem Inv.nonempty (h : Inv a live freed n free pend) (hb : b ∈ blocksOf live ++ free ++ pend) :
    a.data b.seg ≠ [] := by
  rcases h.inside b hb with ⟨hin, h16, _⟩
  intro h0
  rw [h0] at hin
  simp at hin
  omega

theorem Inv.write (h : Inv a live freed n free [b]) (p : Nat) (bs : Bytes) (hlo : b.off ≤ p)
    (hhi : p + bs.length ≤ b.off + b.size) : Inv (a.write b.seg p bs) live freed n free [b] := by
  have hin := (h.inside b (by simp)).1
  have hseg := lt_of_data (h.nonempty (b := b) (by simp))
  have hlen : (writeAt (a.data b.seg) p bs).length = (a.data b.seg).length :=
    length_writeAt (by omega)
  have hdata := data_setData hseg (writeAt (a.data b.seg) p bs)
  have hlenAll : ∀ i, ((a.write b.seg p bs).data i).length = (a.data i).length := by
    intro i
    rw [Arena.write, hdata]
    split
    · rename_i hi
      rw [hi, hlen]
    · rfl
  have hcap : ∀ i, (a.write b.seg p bs).capacity i = a.capacity i := fun i => capacity_setData _ i
  have hnil : ∀ s, a.data s = [] → (a.write b.seg p bs).data s = [] := by
    intro s hs
    exact length_eq_zero_iff.1 (by rw [hlenAll, hs]; rfl)
  refine h.change ?_ ?_ h.apart (fun c hc => ⟨?_, (hlenAll c.seg).ge⟩)
    (fun c _ _ => ⟨hcap c.seg, hlenAll c.seg⟩) (fun _ => rfl) h.heads
    ⟨h.holes_nodup, fun s hs => ?_⟩ h.gen le_rfl (by simp [Arena.write])
    (fun s hs => Or.inl (hnil s hs)) (fun d hd => Or.inl hd)
  · intro i
    rw [hlenAll, hcap]
    exact h.caps i
  · intro c hc
    rw [hlenAll]
    exact h.inside c (mem_append_right _ hc)
  · -- another block is apart from this one, so its bytes are not touched
    intro q k hq hk
    rw [Arena.write, hdata]
    by_cases hcb : c.seg = b.seg
    · rw [if_pos hcb, hcb]
      refine readAt_writeAt_of_disjoint (by omega) ?_
      rcases h.apart_pend hc with hne' | hb | hb
      · exact absurd hcb hne'
      · exact Or.inl (by omega)
      · exact Or.inr (by omega)
    · rw [if_neg hcb]
  · rcases h.hole s hs with ⟨h1, h2, h3⟩
    exact ⟨by simpa [Arena.write] using h1, hnil s h2, (hcap s).trans h3⟩

theorem Inv.same_memory (h : Inv a live freed n free pend)
    (hsegs : a'.segments = a.segments) (hhead : ∀ k, a'.head k = a.head k)
    (hholes : a'.holes = a.holes)
    (hheads : ∀ f, a'.free = some f → f.heads.length = freeBucketCount)
    (hgen : a'.generation = genOf n') (hn : n ≤ n') : Inv a' live freed n' free pend := by
  have hdata : ∀ i, a'.data i = a.data i := fun i => by rw [data, hsegs, data]
  have hcap : ∀ i, a'.capacity i = a.capacity i := fun i => by rw [capacity, hsegs, capacity]
  refine h.change (fun i => by rw [hdata, hcap]; exact h.caps i) (fun b hb => ?_) h.apart
    (fun c _ => ⟨fun p k _ _ => by rw [hdata], by rw [hdata]⟩)
    (fun c _ _ => ⟨hcap _, by rw [hdata]⟩) hhead hheads ⟨hholes ▸ h.holes_nodup, fun s hs => ?_⟩
    hgen hn (by rw [hsegs]) (fun s hs => Or.inl ((hdata s).trans hs)) (fun d hd => Or.inl hd)
  · rw [hdata]
    exact h.inside b (mem_append_right _ hb)
  · rw [hsegs, hdata, hcap]
    exact h.hole s (hholes ▸ hs)

theorem Inv.draw (h : Inv a live freed n free pend) :
    Inv a.nextGeneration live freed (n + 1) free pend :=
  h.same_memory rfl (fun _ => rfl) rfl h.heads (nextGeneration_spec h.gen) (Nat.le_succ n)

variable {f : FreeTable}

theorem head_setHead (hf : a.free = some f)
    (hlen : f.heads.length = freeBucketCount) (hb : bucket < freeBucketCount) (address k : Nat) :
    (a.setHead bucket address).head k = if k = bucket then address else a.head k := by
  by_cases hk : k = bucket
  · subst hk
    have : k < f.heads.length := by omega
    simp [head, setHead, hf, this]
  · simp [head, setHead, hf, hk, Ne.symm hk]

theorem heads_setHead (h : ∀ f, a.free = some f → f.heads.length = freeBucketCount)
    (bucket address : Nat) :
    ∀ f, (a.setHead bucket address).free = some f → f.heads.length = freeBucketCount := by
  intro f hf
  rcases Option.map_eq_some_iff.1 hf with ⟨g, hg, rfl⟩
  simpa using h g hg

theorem holes_setHead (bucket address : Nat) : (a.setHead bucket address).holes = a.holes := by
  unfold holes setHead
  cases a.free <;> rfl

theorem holes_setHoles (h : a.holes ≠ []) (hs : List Nat) : (a.setHoles hs).holes = hs := by
  unfold holes setHoles at *
  cases hf : a.free with
  | none => simp [hf] at h
  | some f => rfl

theorem Inv.of_setHead {pend' free' : List Block} (h : Inv a live freed n free pend)
    (bucket address : Nat)
    (hperm : (blocksOf live ++ free' ++ pend').Perm (blocksOf live ++ free ++ pend))
    (hchain : ∀ k, Chain a ((a.setHead bucket address).head k)
      (free'.filter (fun b => b.bucket = k)))
    (hfree : ∀ b ∈ free', b.size = bucketBlock b.bucket ∧ b.bucket ≠ dedicatedBucket ∧
      (b.bucket < freeBucketCount ∧ b.seg < 2 ^ 25) ∧ a.word b.seg b.off = 0) :
    Inv (a.setHead bucket address) live freed n free' pend' where
  caps := h.caps
  apart := hperm.symm.pairwise h.apart Block.Apart.symm
  inside := fun b hb => h.inside b (hperm.mem_iff.1 hb)
  held := fun g hg =>
    (h.held g hg).frame fun b _ => ⟨fun _ _ _ _ => rfl, fun _ => ⟨rfl, rfl⟩⟩
  chain := fun k => Chain.frame (a := a) (fun _ _ => rfl) (hchain k)
  freeBlock := hfree
  holes_nodup := by
    rw [holes_setHead]
    exact h.holes_nodup
  hole := by
    rw [holes_setHead]
    exact h.hole
  heads := heads_setHead h.heads bucket address
  gen := h.gen
  draw_le := h.draw_le
  retired := fun g hg b hb =>
    have hr := (h.retired g hg b hb).owners hperm.symm.subset fun l hl _ => .inl hl
    ⟨hr.drawn, hr.generation, hr.inside, hr.start, hr.later⟩

/-- The list of a bucket without its first block, if it has one; the other lists stay. -/
def Popped (bucket : Nat) (free free' : List Block) : Prop :=
  ∀ k, free'.filter (fun b => b.bucket = k) =
    if k = bucket then (free.filter (fun b => b.bucket = k)).tail
    else free.filter (fun b => b.bucket = k)

theorem Inv.pop (h : Inv a live freed n free []) (hhead : a.head bucket ≠ 0) :
    ∃ (b : Block) (free' : List Block), b.bucket = bucket ∧ b.size = bucketBlock bucket ∧
      bucket ≠ dedicatedBucket ∧ a.head bucket = (b.seg + 1) * 2 ^ 32 + b.off ∧
      Popped bucket free free' ∧
      Inv (a.setHead bucket (a.word b.seg (b.off + 8))) live freed n free' [b] := by
  have hchain := h.chain bucket
  cases hlist : free.filter (fun b => b.bucket = bucket) with
  | nil =>
    rw [hlist] at hchain
    exact absurd hchain hhead
  | cons b rest =>
    rw [hlist] at hchain
    rcases hchain with ⟨haddr, hrest⟩
    rcases filter_eq_cons_iff.1 hlist with ⟨l₁, l₂, rfl, hl₁, hb, hl₂⟩
    have hbucket : b.bucket = bucket := of_decide_eq_true hb
    rcases h.freeBlock b (by simp) with ⟨hsize, hshared, ⟨hlt, _⟩, _⟩
    have hsome : ∃ f, a.free = some f := by
      cases hf : a.free with
      | none =>
        unfold head at hhead
        rw [hf] at hhead
        exact absurd rfl hhead
      | some f => exact ⟨f, rfl⟩
    rcases hsome with ⟨f, hf⟩
    subst hbucket
    have hpop : Popped b.bucket (l₁ ++ b :: l₂) (l₁ ++ l₂) := by
      intro k
      split
      next hk =>
        rw [hk, hlist, filter_append, filter_eq_nil_iff.2 hl₁, hl₂]
        rfl
      next hk =>
        rw [filter_append, filter_append, filter_cons_of_neg (by simpa using Ne.symm hk)]
    refine ⟨b, l₁ ++ l₂, rfl, hsize, hshared, haddr, hpop, ?_⟩
    refine h.of_setHead _ _ ?_ ?_ ?_
    · have hmid : (l₁ ++ b :: l₂).Perm (l₁ ++ l₂ ++ [b]) :=
        perm_middle.trans (perm_append_singleton b (l₁ ++ l₂)).symm
      simpa [append_assoc] using (hmid.symm.append_left (blocksOf live))
    · intro k
      rw [head_setHead hf (h.heads f hf) hlt, hpop k]
      split
      next hk =>
        rw [hk, hlist]
        exact hrest
      next => exact h.chain k
    · intro c hc
      refine h.freeBlock c ?_
      rcases mem_append.1 hc with hc | hc <;> simp [hc]

theorem Inv.gain (h : Inv a live freed n free [])
    (hin : b.off + b.size ≤ (a'.data b.seg).length ∧ 16 ≤ b.size ∧ b.off < segmentBytes)
    (hapart : ∀ c ∈ blocksOf live ++ free, c.Apart b)
    (hcaps : ∀ i, (a'.data i).length ≤ a'.capacity i ∧
      (a'.capacity i ≤ segmentBytes ∨ (a'.data i).length = a'.capacity i))
    (hsame : ∀ c ∈ blocksOf live ++ free, SameIn a a' c ∧
      (a.data c.seg).length ≤ (a'.data c.seg).length)
    (hseg : ∀ c ∈ blocksOf live, segmentBytes < c.size → SameSegment a a' c)
    (hfree : a'.free = a.free ∨ ∃ f, a.free = some f ∧ ∃ hs, a'.free = some { f with holes := hs })
    (hholes : a'.holes.Nodup ∧
      ∀ s ∈ a'.holes, s < a'.segments.length ∧ a'.data s = [] ∧ a'.capacity s = 0)
    (hgen : a'.generation = a.generation) (hlen : a.segments.length ≤ a'.segments.length)
    (hempty : ∀ s, a.data s = [] → a'.data s = [] ∨ b.seg = s ∧ b.off = 0) :
    Inv a' live freed n free [b] := by
  have hhead : ∀ k, a'.head k = a.head k := by
    intro k
    rcases hfree with heq | ⟨f, hf, hs, hf'⟩
    · simp [head, heq]
    · simp [head, hf, hf']
  have hold := h.apart
  rw [append_nil] at hold
  refine h.change hcaps (fun c hc => mem_singleton.1 hc ▸ hin) ?_ hsame hseg hhead
    (fun g hg => ?_) hholes (hgen.trans h.gen) le_rfl hlen (fun s hs => ?_) nofun
  · refine pairwise_append.2 ⟨hold, pairwise_singleton _ _, ?_⟩
    intro c hc d hd
    rw [mem_singleton.1 hd]
    exact hapart c hc
  · rcases hfree with heq | ⟨f, hf, hs, hf'⟩
    · exact h.heads g (heq ▸ hg)
    · rw [hf'] at hg
      cases hg
      exact h.heads f hf
  · exact (hempty s hs).imp_right fun hb => ⟨b, mem_singleton_self b, hb⟩

theorem Inv.occupy (h : Inv a live freed n free []) {seg : Nat}
    (h16 : 16 ≤ block) (hcap : block ≤ cap ∧ (cap ≤ segmentBytes ∨ cap = block))
    (hnil : a.data seg = [])
    (hsegs : ∀ i, a'.segments[i]? =
      if i = seg then some { data := replicate block 0, cap } else a.segments[i]?)
    (hfree : a'.free = a.free ∨ ∃ f, a.free = some f ∧ ∃ hs, a'.free = some { f with holes := hs })
    (hholes : a'.holes.Nodup ∧ ∀ s ∈ a'.holes, s ∈ a.holes ∧ s ≠ seg)
    (hgen : a'.generation = a.generation) (hlen : a.segments.length ≤ a'.segments.length) :
    Inv a' live freed n free [⟨seg, 0, bucket, block⟩] := by
  have hdata := fun i => (data_of_getElem? hsegs i).1
  have hcaps := fun i => (data_of_getElem? hsegs i).2
  have hother : ∀ c ∈ blocksOf live ++ free, c.seg ≠ seg := by
    intro c hc heq
    exact h.nonempty (b := c) (by simpa using hc) (by rw [heq, hnil])
  refine h.gain ?_ ?_ ?_ ?_ ?_ hfree ⟨hholes.1, ?_⟩ hgen hlen ?_
  · refine ⟨?_, h16, (by decide : 0 < segmentBytes)⟩
    rw [hdata, if_pos rfl]
    simp
  · intro c hc
    exact Or.inl (hother c hc)
  · intro i
    rw [hdata, hcaps]
    split
    · simp
      omega
    · exact h.caps i
  · intro c hc
    have hne := hother c hc
    exact ⟨fun p k _ _ => by rw [hdata, if_neg hne], by rw [hdata, if_neg hne]⟩
  · intro c hc _
    have hne := hother c (mem_append_left _ hc)
    exact ⟨by rw [hcaps, if_neg hne], by rw [hdata, if_neg hne]⟩
  · intro s hs
    obtain ⟨hold, hne⟩ := hholes.2 s hs
    rcases h.hole s hold with ⟨h1, h2, h3⟩
    exact ⟨h1.trans_le hlen, by rw [hdata, if_neg hne, h2], by rw [hcaps, if_neg hne, h3]⟩
  · intro s hs
    by_cases heq : s = seg
    · exact Or.inr ⟨heq.symm, rfl⟩
    · exact Or.inl (by rw [hdata, if_neg heq, hs])

theorem Inv.fillHole (h : Inv a live freed n free []) {hole : Nat} {rest : List Nat}
    (hholes : a.holes = hole :: rest) (h16 : 16 ≤ block)
    (hded : dedicatedBlock block = true) : Inv ((a.setHoles rest).setSegment hole
        { data := replicate block 0, cap := segmentSizeForBlock block })
      live freed n free [⟨hole, 0, bucket, block⟩] := by
  have hnodup := h.holes_nodup
  rw [hholes, nodup_cons] at hnodup
  rcases h.hole hole (by simp [hholes]) with ⟨hlt, hnil, _⟩
  have hcap := segmentSizeForBlock_dedicated hded
  cases hf : a.free with
  | none => simp [holes, hf] at hholes
  | some f =>
    refine h.occupy h16 ⟨hcap.ge, Or.inr hcap⟩ hnil
      (getElem?_setSegment (a := a.setHoles rest) hlt _)
      (Or.inr ⟨f, hf, rest, ?_⟩) ?_ rfl ?_
    · simp [setSegment, setHoles, hf]
    · have hrest : ((a.setHoles rest).setSegment hole
          { data := replicate block 0, cap := segmentSizeForBlock block }).holes = rest := by
        simp [holes, setSegment, setHoles, hf]
      rw [hrest, hholes]
      exact ⟨hnodup.2, fun s hs => ⟨mem_cons_of_mem _ hs, fun heq => hnodup.1 (heq ▸ hs)⟩⟩
    · simp [setSegment, setHoles]

theorem Inv.extend (h : Inv a live freed n free []) {seg : Nat}
    (hseg : seg < a.segments.length) (h16 : 16 ≤ block)
    (hroom : ¬ a.capacity seg - (a.data seg).length < block) :
    Inv (a.setData seg (a.data seg ++ replicate block 0)) live freed n free
      [⟨seg, (a.data seg).length, bucket, block⟩] := by
  have hcapseg := h.caps seg
  have hdata := data_setData hseg (a.data seg ++ replicate block 0)
  set a' := a.setData seg (a.data seg ++ replicate block 0) with ha'
  have hcap : ∀ i, a'.capacity i = a.capacity i := fun i => capacity_setData _ i
  have hmem : ∀ {c : Block}, c ∈ blocksOf live ++ free → c ∈ blocksOf live ++ free ++ [] := by
    simp
  have hinside : ∀ c ∈ blocksOf live ++ free, c.seg = seg →
      c.off + c.size ≤ (a.data seg).length := by
    intro c hc heq
    exact heq ▸ (h.inside c (hmem hc)).1
  refine h.gain ?_ ?_ ?_ ?_ ?_ (Or.inl rfl) ?_ rfl (by simp [ha']) ?_
  · rw [hdata, if_pos rfl]
    simp
    omega
  · intro c hc
    by_cases heq : c.seg = seg
    · exact Or.inr (Or.inl (hinside c hc heq))
    · exact Or.inl heq
  · intro i
    rw [hdata, hcap]
    split
    · rename_i heq
      subst heq
      simp
      omega
    · exact h.caps i
  · intro c hc
    by_cases heq : c.seg = seg
    · have hle := hinside c hc heq
      refine ⟨?_, ?_⟩
      · intro p k _ hk
        rw [heq, hdata, if_pos rfl, readAt_append (by omega)]
      · rw [heq, hdata, if_pos rfl]
        simp
    · exact ⟨fun p k _ _ => by rw [hdata, if_neg heq], by rw [hdata, if_neg heq]⟩
  · -- a segment of one big block has no room, so it is another one
    intro c hc hbig
    have hne : c.seg ≠ seg := by
      rintro rfl
      have := (h.inside c (by simp [hc])).1
      omega
    exact ⟨hcap _, by rw [hdata, if_neg hne]⟩
  · refine ⟨h.holes_nodup, ?_⟩
    intro s hs
    rcases h.hole s hs with ⟨h1, h2, h3⟩
    have hne : s ≠ seg := by
      rintro rfl
      omega
    exact ⟨by simpa [ha'] using h1, by rw [hdata, if_neg hne, h2], by rw [hcap, h3]⟩
  · intro s hs
    by_cases heq : s = seg
    · subst heq
      exact Or.inr ⟨rfl, by rw [hs]; rfl⟩
    · exact Or.inl (by rw [hdata, if_neg heq, hs])

theorem Inv.newSegment (h : Inv a live freed n free []) (h16 : 16 ≤ block)
    (hcap : block ≤ cap) (hshared : cap ≤ segmentBytes ∨ cap = block) :
    Inv (a.addSegment { data := replicate block 0, cap }) live freed n free
      [⟨a.segments.length, 0, bucket, block⟩] := by
  have hnil : a.data a.segments.length = [] := by simp [data]
  exact h.occupy h16 ⟨hcap, hshared⟩ hnil (getElem?_addSegment _) (Or.inl rfl)
    ⟨h.holes_nodup, fun s hs => ⟨hs, (h.hole s hs).1.ne⟩⟩ rfl (by simp [addSegment])

variable {g : Handed}

theorem Inv.publish (h : Inv a live freed n free g.ref.block.toList) (hheld : Held a g)
    (hdraw : g.draw ≤ n) (hlater : g.ref.block ≠ none → ∀ f ∈ freed, f.draw < g.draw) :
    Inv a (g :: live) freed n free [] := by
  have hblocks : blocksOf (g :: live) = g.ref.block.toList ++ blocksOf live := by
    cases hb : g.ref.block <;> simp [blocksOf, hb]
  have hperm : (blocksOf (g :: live) ++ free ++ []).Perm
      (blocksOf live ++ free ++ g.ref.block.toList) := by
    rw [hblocks, append_nil, append_assoc]
    exact perm_append_comm
  refine { h with
    apart := hperm.symm.pairwise h.apart Block.Apart.symm
    inside := fun c hc => h.inside c (hperm.mem_iff.1 hc)
    held := forall_mem_cons.2 ⟨hheld, h.held⟩
    draw_le := forall_mem_cons.2 ⟨hdraw, h.draw_le⟩
    retired := fun f hf c hc => (h.retired f hf c hc).owners hperm.symm.subset ?_ }
  intro l hl hblock
  rcases mem_cons.1 hl with rfl | hl
  · exact Or.inr (hlater hblock f hf)
  · exact Or.inl hl

theorem Inv.publishBare (h : Inv a live freed n free []) (hheld : Held a g)
    (hnone : g.ref.block = none) (hdraw : g.draw ≤ n) : Inv a (g :: live) freed n free [] :=
  Inv.publish (by rwa [hnone]) hheld hdraw fun hblock => absurd hnone hblock

/-! ## Stages of a release -/

theorem blocksOf_erase (hg : g ∈ live) :
    (blocksOf live).Perm (g.ref.block.toList ++ blocksOf (live.erase g)) := by
  have hperm := (perm_cons_erase hg).filterMap (fun h => h.ref.block)
  refine hperm.trans ?_
  cases hb : g.ref.block <;> simp [blocksOf, hb]

theorem Inv.retire (h : Inv a live freed n free []) (hg : g ∈ live) :
    Inv a (live.erase g) (g :: freed) n free g.ref.block.toList := by
  have hperm : (blocksOf (live.erase g) ++ free ++ g.ref.block.toList).Perm
      (blocksOf live ++ free ++ []) := by
    rw [append_nil]
    refine perm_append_comm.trans ?_
    rw [← append_assoc]
    exact ((blocksOf_erase hg).append_right free).symm
  have hsub : ∀ {k : Handed}, k ∈ live.erase g → k ∈ live := mem_of_mem_erase
  refine { h with
    apart := hperm.symm.pairwise h.apart Block.Apart.symm
    inside := fun c hc => h.inside c (hperm.mem_iff.1 hc)
    held := fun k hk => h.held k (hsub hk)
    draw_le := ?_
    retired := ?_ }
  · intro k hk
    rcases mem_append.1 hk with hk | hk
    · exact h.draw_le k (mem_append_left _ (hsub hk))
    · rcases mem_cons.1 hk with rfl | hk
      · exact h.draw_le k (mem_append_left _ hg)
      · exact h.draw_le k (mem_append_right _ hk)
  · intro f hf c hc
    rcases mem_cons.1 hf with rfl | hf
    · -- the block just given up: no other live reference starts where it does
      have hmem : c ∈ blocksOf live := mem_blocksOf.2 ⟨f, hg, hc⟩
      have hown : c ∈ blocksOf live ++ free ++ [] := by simp [hmem]
      have hb := (h.held f hg).of_block hc
      refine ⟨hb.drawn, hb.generation, lt_of_data (h.nonempty hown),
        Or.inr ⟨c, hperm.mem_iff.2 hown, rfl, rfl⟩, ?_⟩
      intro l hl d hd hs ho
      have hpair := hperm.symm.pairwise h.apart Block.Apart.symm
      rw [hc, Option.toList_some, pairwise_append] at hpair
      have hdm : d ∈ blocksOf (live.erase f) ++ free :=
        mem_append_left _ (mem_blocksOf.2 ⟨l, hl, hd⟩)
      have hapart := hpair.2.2 d hdm c (by simp)
      have hcin := h.inside c hown
      have hdin := h.inside d (hperm.mem_iff.1 (mem_append_left _ hdm))
      unfold Block.Apart at hapart
      omega
    · exact (h.retired f hf c hc).owners hperm.symm.subset fun l hl _ => Or.inl (hsub hl)

theorem Inv.withFreeTable (h : Inv a live freed n free pend) :
    Inv a.withFreeTable live freed n free pend := by
  cases hf : a.free with
  | some f =>
    have : a.withFreeTable = a := by simp [Arena.withFreeTable, hf]
    rwa [this]
  | none =>
    refine h.same_memory ?_ (fun k => ?_) ?_ (fun f hf' => ?_) ?_ le_rfl
    · simp [Arena.withFreeTable, hf]
    · simp only [Arena.withFreeTable, head, hf]
      rw [getD_eq_getElem?_getD, getElem?_replicate]
      split <;> rfl
    · simp [Arena.withFreeTable, holes, hf]
    · simp only [Arena.withFreeTable, hf] at hf'
      cases hf'
      exact length_replicate
    · simp only [Arena.withFreeTable, hf]
      exact h.gen

theorem Inv.push (h : Inv a live freed n free [b]) (hf : a.free = some f)
    (hclass : b.size = bucketBlock b.bucket) (hshared : b.bucket ≠ dedicatedBucket)
    (hlt : b.bucket < freeBucketCount ∧ b.seg < 2 ^ 25) (hheader : a.word b.seg b.off = 0)
    (hnext : a.word b.seg (b.off + 8) = a.head b.bucket) :
    Inv (a.setHead b.bucket ((b.seg + 1) * 2 ^ 32 + b.off)) live freed n (b :: free) [] := by
  refine h.of_setHead _ _ ?_ ?_ ?_
  · rw [append_nil, append_assoc]
    refine Perm.append_left _ ?_
    exact (perm_append_singleton b free).symm
  · intro k
    rw [head_setHead hf (h.heads f hf) hlt.1]
    by_cases hk : k = b.bucket
    · subst hk
      rw [if_pos rfl, filter_cons_of_pos (by simp)]
      refine ⟨rfl, ?_⟩
      rw [hnext]
      exact h.chain b.bucket
    · rw [if_neg hk, filter_cons_of_neg (by simpa using Ne.symm hk)]
      exact h.chain k
  · exact forall_mem_cons.2 ⟨⟨hclass, hshared, hlt, hheader⟩, h.freeBlock⟩

theorem Inv.head_lt (h : Inv a live freed n free pend) (bucket : Nat) :
    a.head bucket < 256 ^ 8 := by
  have hchain := h.chain bucket
  cases hlist : free.filter (fun b => b.bucket = bucket) with
  | nil =>
    rw [hlist] at hchain
    rw [show a.head bucket = 0 from hchain]
    decide
  | cons b rest =>
    have hb : b ∈ free := mem_of_mem_filter (hlist ▸ mem_cons_self)
    rw [hlist] at hchain
    rw [hchain.1]
    have hseg := (h.freeBlock b hb).2.2.1.2
    have hoff := (h.inside b (by simp [hb])).2.2
    unfold segmentBytes at hoff
    omega

theorem Inv.dropSegment (h : Inv a live freed n free [b]) (hf : a.free = some f)
    (h0 : b.off = 0) (hlen : (a.data b.seg).length = b.size) :
    Inv ((a.setHoles (b.seg :: a.holes)).setSegment b.seg { data := [], cap := 0 })
      live freed n free [] := by
  have hne := h.nonempty (b := b) (by simp)
  have hlt := lt_of_data hne
  have hdrop := fun i => data_of_getElem? (a := a)
    (getElem?_setSegment (a := a.setHoles (b.seg :: a.holes)) hlt { data := [], cap := 0 }) i
  set a' := (a.setHoles (b.seg :: a.holes)).setSegment b.seg { data := [], cap := 0 } with ha'
  have hdata : ∀ i, a'.data i = if i = b.seg then [] else a.data i := fun i => (hdrop i).1
  have hcap : ∀ i, a'.capacity i = if i = b.seg then 0 else a.capacity i := fun i => (hdrop i).2
  have hholes : a'.holes = b.seg :: a.holes := by
    simp [ha', holes, setSegment, setHoles, hf]
  have hhead : ∀ k, a'.head k = a.head k := by
    intro k
    simp [ha', head, setSegment, setHoles, hf]
  -- the block fills its segment, so no other block lies in it
  have hother : ∀ c ∈ blocksOf live ++ free, c.seg ≠ b.seg := by
    intro c hc heq
    have hapart := h.apart_pend hc
    have hin := h.inside c (mem_append_left _ hc)
    rw [heq, hlen] at hin
    unfold Block.Apart at hapart
    omega
  have hlocal : ∀ c ∈ blocksOf live ++ free, a'.data c.seg = a.data c.seg := by
    intro c hc
    rw [hdata, if_neg (hother c hc)]
  have hpair := h.apart
  rw [pairwise_append] at hpair
  have hsegs : a'.segments.length = a.segments.length := by
    simp [ha', setSegment, setHoles]
  refine h.change (fun i => ?_) nofun (by rw [append_nil]; exact hpair.1)
    (fun c hc => ⟨fun p k _ _ => by rw [hlocal c hc], by rw [hlocal c hc]⟩) (fun c hc _ => ?_)
    hhead (fun g hg => ?_) ?_ h.gen le_rfl hsegs.ge (fun s hs => Or.inl ?_) (fun d hd => Or.inr ?_)
  · rw [hdata, hcap]
    split
    · simp
    · exact h.caps i
  · have hc' := mem_append_left free hc
    exact ⟨by rw [hcap, if_neg (hother c hc')], by rw [hlocal c hc']⟩
  · have : a'.free = some { f with holes := b.seg :: a.holes } := by
      simp [ha', setSegment, setHoles, hf]
    rw [this] at hg
    cases hg
    exact h.heads f hf
  · rw [hholes, nodup_cons]
    refine ⟨⟨fun hmem => hne (h.hole _ hmem).2.1, h.holes_nodup⟩, fun s hs => ?_⟩
    rw [hsegs, hdata, hcap]
    by_cases heq : s = b.seg
    · simp [heq, hlt]
    · rw [if_neg heq, if_neg heq]
      exact h.hole s ((mem_cons.1 hs).resolve_left heq)
  · rw [hdata]
    split
    · rfl
    · exact hs
  · rw [mem_singleton.1 hd, hdata, if_pos rfl]
    exact ⟨h0, rfl⟩

end Stages

end Arena
end SnugKV
