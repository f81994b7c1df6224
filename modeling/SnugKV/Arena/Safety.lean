import SnugKV.Arena.Invariant

/-!
# Arena safety — what holds after every run of `alloc`, `allocInline` and `release`

* `takeBlock_inv`, `alloc_inv`, `allocInline_inv`, `release_inv`: one call keeps `Inv`;
* `view_of_held`, `refused_of_retired`: what `Inv` says about the readers;
* `generations_le_of_reissued`: a block gets an old generation back after a whole round only;
* `Run`: any sequence of calls that ends with the references `live` and `freed`.

Releasing a reference that was already released is part of a run, unless its block has an owner
of the same generation by then (`Reissued`): the call would release the owner's block.
-/

namespace SnugKV
namespace Arena

open Lib List

section Calls

variable {a a' : Arena} {live freed : List Handed} {n : Nat} {free : List Block}

/-! ## Taking a block -/

theorem addSegment_last (a : Arena) (s : Segment) :
    (a.addSegment s).data a.segments.length = s.data ∧
      (a.addSegment s).capacity a.segments.length = s.cap := by
  simpa using data_of_getElem? (getElem?_addSegment (a := a) s) a.segments.length

theorem setData_addSegment (a : Arena) (s : Segment) (bytes : Bytes) :
    (a.addSegment s).setData a.segments.length bytes = a.addSegment { s with data := bytes } := by
  simp only [addSegment, setData, Arena.mk.injEq, and_true]
  refine ext_getElem? fun i => ?_
  rw [getElem?_modify]
  rcases Nat.lt_trichotomy i a.segments.length with h | h | h
  · simp [getElem?_append_left h, ne_of_gt h]
  · subst h
    simp
  · rw [getElem?_eq_none (by simp; omega), getElem?_eq_none (by simp; omega)]
    rfl

/-- Where a block comes from: its free list, a hole, a new segment or the last one. -/
inductive Taken (a : Arena) (bucket block : Nat) : Arena × Nat × Nat → Prop where
  | listed : a.head bucket ≠ 0 →
      Taken a bucket block
        (a.setHead bucket (a.word (a.head bucket / 2 ^ 32 - 1) (a.head bucket % 2 ^ 32 + 8)),
          a.head bucket / 2 ^ 32 - 1, a.head bucket % 2 ^ 32)
  | hole {hole : Nat} {rest : List Nat} : a.head bucket = 0 → a.holes = hole :: rest →
      dedicatedBlock block = true →
      Taken a bucket block ((a.setHoles rest).setSegment hole
        { data := List.replicate block 0, cap := segmentSizeForBlock block }, hole, 0)
  | segment : a.head bucket = 0 → ¬ (dedicatedBlock block = true ∧ a.holes ≠ []) →
      (a.segments.length = 0 ∨
        a.capacity (a.segments.length - 1) - (a.data (a.segments.length - 1)).length < block) →
      Taken a bucket block (a.addSegment
        { data := List.replicate block 0, cap := segmentSizeForAllocation block a.segments.length },
          a.segments.length, 0)
  | room {last : Nat} : a.head bucket = 0 → ¬ (dedicatedBlock block = true ∧ a.holes ≠ []) →
      last + 1 = a.segments.length → ¬ a.capacity last - (a.data last).length < block →
      Taken a bucket block (a.setData last (a.data last ++ List.replicate block 0), last,
        (a.data last).length)

theorem takeBlock_taken (a : Arena) (bucket block : Nat) :
    Taken a bucket block (a.takeBlock bucket block) := by
  unfold takeBlock
  simp only
  split
  next hhead => exact .listed hhead
  next hhead =>
    replace hhead := not_not.1 hhead
    split
    next hole rest hholes hded => exact .hole hhead hholes hded
    next hnone =>
      have hother : ¬ (dedicatedBlock block = true ∧ a.holes ≠ []) := by
        rintro ⟨hded, hne⟩
        rcases exists_cons_of_ne_nil hne with ⟨hole, rest, hholes⟩
        exact hnone hole rest hholes hded
      split
      next hfull =>
        have hlen : ∀ s, (a.addSegment s).segments.length - 1 = a.segments.length := by
          simp [addSegment]
        rw [hlen, (addSegment_last ..).1, nil_append, setData_addSegment]
        exact .segment hhead hother hfull
      next hfull =>
        rw [not_or] at hfull
        exact .room hhead hother (Nat.succ_pred_eq_of_ne_zero hfull.1) hfull.2

variable {seg : Nat} {g : Handed}

variable {bucket block off p : Nat}

theorem takeBlock_inv (h : Inv a live freed n free []) {size : Nat}
    (hclass : ClassOK size bucket block)
    (htake : a.takeBlock bucket block = (a', seg, off)) :
    ∃ free', Popped bucket free free' ∧ Inv a' live freed n free' [⟨seg, off, bucket, block⟩] ∧
      (segmentBytes < block →
        off = 0 ∧ a'.capacity seg = block ∧ (a'.data seg).length = block) := by
  have htaken := takeBlock_taken a bucket block
  rw [htake] at htaken
  -- without a list to pop, the lists stay as they are
  have hunlisted : a.head bucket = 0 → Popped bucket free free := by
    intro hhead k
    split
    next hk =>
      have hchain := h.chain k
      rw [hk, hhead] at hchain
      rw [hk, hchain.nil_of_zero]
      rfl
    next => rfl
  cases htaken with
  | listed hhead =>
    rcases h.pop hhead with ⟨b, free', hbucket, hsize, hshared, haddr, hpop, hinv⟩
    rcases address_parts haddr (hinv.inside b (by simp)).2.2 with ⟨hseg, hoff⟩
    rw [hseg, hoff]
    have hb : (⟨b.seg, b.off, bucket, block⟩ : Block) = b := by
      rw [← hbucket, hclass.block_eq hshared, ← hsize]
    rw [hb]
    refine ⟨free', hpop, hinv, fun hbig => ?_⟩
    exact absurd (hclass.shared.1 hshared) (not_le.2 hbig)
  | @hole _ rest hhead hholes hded =>
    have hlt := (h.hole seg (by simp [hholes])).1
    have hfill := data_of_getElem? (getElem?_setSegment (a := a.setHoles rest) hlt
      { data := replicate block 0, cap := segmentSizeForBlock block }) seg
    simp only [if_true] at hfill
    refine ⟨free, hunlisted hhead, h.fillHole hholes hclass.min hded, fun _ => ⟨rfl, ?_, ?_⟩⟩
    · rw [hfill.2, segmentSizeForBlock_dedicated hded]
    · rw [hfill.1, length_replicate]
  | segment hhead =>
    rcases @segmentSizeForAllocation_spec block (by have := hclass.min; omega)
      a.segments.length with ⟨hfit, hcap⟩
    refine ⟨free, hunlisted hhead, h.newSegment hclass.min hfit hcap, fun hbig => ⟨rfl, ?_, ?_⟩⟩
    · rw [(addSegment_last ..).2]
      exact hcap.resolve_left fun hcap => absurd (hfit.trans hcap) (not_le.2 hbig)
    · rw [(addSegment_last ..).1, length_replicate]
  | room hhead _ hlast hroom =>
    refine ⟨free, hunlisted hhead, h.extend (by omega) hclass.min hroom, fun hbig => ?_⟩
    -- a segment with room is a shared one
    have hcaps := h.caps seg
    omega

/-! ## The calls keep the invariant -/

theorem word_write_self {w : Nat} (hseg : seg < a.segments.length)
    (hp : p + 8 ≤ (a.data seg).length) (hw : w < 256 ^ 8) :
    (a.write seg p (putUint 8 w)).word seg p = w := by
  have hread : readAt (writeAt (a.data seg) p (putUint 8 w)) p 8 = putUint 8 w := by
    simpa using @readAt_writeAt_self _ (a.data seg) (putUint 8 w) p (by simpa using hp)
  rw [word, write, data_setData hseg, if_pos rfl, hread, getUint_putUint_of_lt hw]

variable {bs value : Bytes}

theorem word_write_of_disjoint {q : Nat} (hseg : seg < a.segments.length)
    (hp : p + bs.length ≤ (a.data seg).length) (hq : q + 8 ≤ p ∨ p + bs.length ≤ q) :
    (a.write seg p bs).word seg q = a.word seg q := by
  rw [word, write, data_setData hseg, if_pos rfl, readAt_writeAt_of_disjoint hp hq, word]

theorem length_data_write (hseg : seg < a.segments.length)
    (hp : p + bs.length ≤ (a.data seg).length) :
    ((a.write seg p bs).data seg).length = (a.data seg).length := by
  rw [write, data_setData hseg, if_pos rfl, length_writeAt hp]

variable {r : Ref}

theorem block_of_fields {len draw : Nat} (hseg : r.segment = seg)
    (hoff : r.offset = off) (hlen : r.length = len) (hdraw : 0 < draw)
    (hgen : r.generation = UInt64.ofNat (genOf draw))
    (hclass : sizeClass len = some (bucket, block)) : r.block = some ⟨seg, off, bucket, block⟩ := by
  rcases isInline_block hdraw hgen with ⟨hinline, hne, _⟩
  simp [Ref.block, hinline, hne, hseg, hoff, hlen, hclass]

/-- The block a call holds gets the next generation and the value. -/
def fill (a : Arena) (seg off : Nat) (value : Bytes) : Arena :=
  (a.nextGeneration.write seg off (putUint 8 a.nextGeneration.generation)).write seg (off + 8)
    value

theorem alloc_ok (hvalue : value ≠ []) (halloc : a.alloc value = .ok (r, a')) :
    ∃ bucket block a₁ seg off, sizeClass value.length = some (bucket, block) ∧
      a.takeBlock bucket block = (a₁, seg, off) ∧ a' = a₁.fill seg off value ∧
      newRef seg off value.length (UInt64.ofNat a'.generation) = .ok r := by
  unfold alloc at halloc
  rw [if_neg (mt length_eq_zero_iff.1 hvalue)] at halloc
  cases hclass : sizeClass value.length with
  | none =>
    rw [hclass] at halloc
    cases halloc
  | some c =>
    rw [hclass] at halloc
    rcases htake : a.takeBlock c.1 c.2 with ⟨a₁, seg, off⟩
    simp only [htake] at halloc
    split at halloc
    · cases halloc
    next ref href =>
      cases halloc
      exact ⟨c.1, c.2, a₁, seg, off, rfl, htake, rfl, href⟩

theorem Inv.fill (h : Inv a live freed n free [⟨seg, off, bucket, block⟩])
    (hclass : sizeClass value.length = some (bucket, block))
    (hwhole : segmentBytes < block → off = 0 ∧ a.capacity seg = block ∧ (a.data seg).length = block)
    (href : newRef seg off value.length (UInt64.ofNat (a.fill seg off value).generation) = .ok r) :
    Inv (a.fill seg off value) (⟨r, value, n + 1⟩ :: live) freed (n + 1) free [] := by
  have h₂ := h.draw
  have hgen := h₂.gen
  rcases genOf_bounds (Nat.succ_pos n) with ⟨_, hlt⟩
  have hfits := (sizeClass_spec hclass).fits
  unfold Arena.fill at href ⊢
  set a₂ := a.nextGeneration
  -- the two writes stay inside the block
  have h₃ := h₂.write off (putUint 8 a₂.generation) le_rfl (by simp; omega)
  have h₄ := h₃.write (off + 8) value (by simp) (by simp; omega)
  set a₃ := a₂.write seg off (putUint 8 a₂.generation) with ha₃
  set a₄ := a₃.write seg (off + 8) value with ha₄
  have hin := (h₂.inside ⟨seg, off, bucket, block⟩ (by simp)).1
  have hseg₂ : seg < a₂.segments.length :=
    lt_of_data (h₂.nonempty (b := ⟨seg, off, bucket, block⟩) (by simp))
  have hseg₃ : seg < a₃.segments.length := by
    rw [ha₃, Arena.write, length_setData]
    exact hseg₂
  simp only at hin
  have hlen₃ : (a₃.data seg).length = (a₂.data seg).length :=
    length_data_write hseg₂ (by simp; omega)
  have hlen₄ : (a₄.data seg).length = (a₃.data seg).length := length_data_write hseg₃ (by omega)
  have hheader : a₄.word seg off = genOf (n + 1) := by
    have hlow : a₂.generation < 256 ^ 8 := by
      rw [hgen]
      exact hlt.trans (by decide)
    have hfit₃ : off + 8 + value.length ≤ (a₃.data seg).length := by omega
    rw [ha₄, word_write_of_disjoint hseg₃ hfit₃ (Or.inl le_rfl), ha₃,
      word_write_self hseg₂ (by omega) hlow]
    exact hgen
  rcases newRef_spec href with ⟨hs, ho, hl, hg⟩
  replace hg : r.generation = UInt64.ofNat (genOf (n + 1)) := by
    rw [hg, ← hgen]
    rfl
  have hblock := block_of_fields hs ho hl (Nat.succ_pos n) hg hclass
  rw [← Option.toList_some, ← hblock] at h₄
  refine Inv.publish (g := ⟨r, value, n + 1⟩) h₄ (.block ⟨seg, off, bucket, block⟩ ?_) le_rfl
    fun _ f hf => Nat.lt_succ_of_le (h.draw_le f (mem_append_right _ hf))
  refine
    { block := hblock
      length := hl
      drawn := Nat.succ_pos n
      generation := hg
      header := hheader
      payload := ?_
      whole := ?_ }
  · rw [ha₄, Arena.write, data_setData hseg₃, if_pos rfl, readAt_writeAt_self (by omega)]
  · intro hbig
    rcases hwhole hbig with ⟨h0, hcap, hlen'⟩
    refine ⟨h0, ?_, ?_⟩
    · rw [ha₄, ha₃, Arena.write, Arena.write, capacity_setData, capacity_setData]
      exact hcap
    · rw [hlen₄, hlen₃]
      exact hlen'

section

variable (h : Inv a live freed n free [])

include h

theorem alloc_inv (hvalue : value ≠ []) (halloc : a.alloc value = .ok (r, a')) :
    ∃ free', Inv a' (⟨r, value, n + 1⟩ :: live) freed (n + 1) free' [] := by
  obtain ⟨bucket, block, a₁, seg, off, hclass, htake, rfl, href⟩ := alloc_ok hvalue halloc
  obtain ⟨free', _, h₁, hwhole⟩ := takeBlock_inv h (sizeClass_spec hclass) htake
  exact ⟨free', h₁.fill hclass hwhole href⟩

theorem allocInline_inv (halloc : a.allocInline value = some (r, a')) :
    Inv a' (⟨r, value, n + 1⟩ :: live) freed (n + 1) free [] := by
  rcases inline_allocInline halloc with ⟨hinline, hvalue, rfl⟩
  exact h.draw.publishBare (.inline hinline hvalue) (by simp [Ref.block, hinline]) le_rfl

end

/-! ## Readers of a live reference -/

variable {b : Block}

theorem BlockHeld.fields (hb : BlockHeld a g b) :
    g.ref.isInline = false ∧ g.ref.generation ≠ 0 ∧ g.ref.generation.toNat = genOf g.draw ∧
      g.ref.segment = b.seg ∧ g.ref.offset = b.off ∧
      sizeClass g.ref.length = some (b.bucket, b.size) := by
  rcases isInline_block hb.drawn hb.generation with ⟨hinline, hne, hnat⟩
  have hblock := hb.block
  rw [Ref.block, if_neg (by simp [hinline, hne])] at hblock
  rcases Option.map_eq_some_iff.1 hblock with ⟨c, hc, rfl⟩
  exact ⟨hinline, hne, hnat, rfl, rfl, hc⟩

theorem view_of_block (h : Inv a live freed n free []) (hg : g ∈ live)
    (hb : BlockHeld a g b) : a.view g.ref = .ok g.value ∧ a.viewKnownLive g.ref = .ok g.value := by
  rcases hb.fields with ⟨hinline, hne, hnat, hseg, hoff, hclass⟩
  have hmem : b ∈ blocksOf live ++ free ++ [] := by
    simp [mem_blocksOf.2 ⟨g, hg, hb.block⟩]
  have hlt := lt_of_data (h.nonempty hmem)
  have hin := (h.inside b hmem).1
  have hfits := (sizeClass_spec hclass).fits
  have hlen : ¬ (a.data b.seg).length < b.off + 8 + g.ref.length := by omega
  have hread : readAt (a.data b.seg) (b.off + 8) g.ref.length = g.value := by
    rw [hb.length]
    exact hb.payload
  constructor
  · simp [view, hinline, hne, hseg, hoff, hlt, hlen, hb.header, hnat, hread]
  · simp [viewKnownLive, hinline, hne, hseg, hoff, hlt, hlen, hread]

theorem view_of_held (h : Inv a live freed n free []) (hg : g ∈ live) :
    a.view g.ref = .ok g.value ∧ a.viewKnownLive g.ref = .ok g.value := by
  rcases h.held g hg with ⟨hz, hv⟩ | ⟨hi, hv⟩ | ⟨b, hb⟩
  · rw [hz, hv]
    exact ⟨rfl, rfl⟩
  · simp [view, viewKnownLive, viewInline, hi, hv]
  · exact view_of_block h hg hb

/-! ## Release -/

theorem release_of_bare (h : r.isInline = true ∨ r.generation = 0) : a.release r = .ok (0, a) := by
  unfold release
  split_ifs with h1 h2
  · rfl
  · rfl
  · rcases h with h | h
    · exact absurd h h1
    · exact absurd h h2

theorem Held.bare_of_block (hg : Held a g) (hnone : g.ref.block = none) :
    g.ref.isInline = true ∨ g.ref.generation = 0 := by
  rcases hg with ⟨hz, _⟩ | ⟨hi, _⟩ | ⟨b, hb⟩
  · rw [hz]
    exact Or.inr rfl
  · exact Or.inl hi
  · rw [hb.block] at hnone
    cases hnone

@[simp] theorem data_withFreeTable (seg : Nat) : a.withFreeTable.data seg = a.data seg := by
  unfold withFreeTable
  split <;> rfl

@[simp] theorem capacity_withFreeTable (seg : Nat) :
    a.withFreeTable.capacity seg = a.capacity seg := by
  unfold withFreeTable
  split <;> rfl

theorem exists_freeTable (a : Arena) : ∃ f, a.withFreeTable.free = some f := by
  unfold withFreeTable
  split
  next f hf => exact ⟨f, hf⟩
  next => exact ⟨_, rfl⟩

theorem Inv.linkBlock (h : Inv a live freed n free [b]) {f : FreeTable}
    (hf : a.free = some f) (hclass : b.size = bucketBlock b.bucket)
    (hshared : b.bucket ≠ dedicatedBucket) (hlt : b.bucket < freeBucketCount ∧ b.seg < 2 ^ 25) :
    Inv (((a.write b.seg b.off (putUint 8 0)).write b.seg (b.off + 8)
        (putUint 8 (a.head b.bucket))).setHead b.bucket ((b.seg + 1) * 2 ^ 32 + b.off))
      live freed n (b :: free) [] := by
  rcases h.inside b (by simp) with ⟨hin, h16, _⟩
  have hseg := lt_of_data (h.nonempty (b := b) (by simp))
  have h₁ := h.write b.off (putUint 8 0) le_rfl (by simp; omega)
  have h₂ := h₁.write (b.off + 8) (putUint 8 (a.head b.bucket)) (by simp) (by simp; omega)
  set a₁ := a.write b.seg b.off (putUint 8 0) with ha₁
  have hseg₁ : b.seg < a₁.segments.length := by
    rw [ha₁, Arena.write, length_setData]
    exact hseg
  have hlen₁ : (a₁.data b.seg).length = (a.data b.seg).length :=
    length_data_write hseg (by simp; omega)
  refine h₂.push hf hclass hshared hlt ?_ ?_
  · rw [word_write_of_disjoint hseg₁ (by simp; omega) (Or.inl le_rfl), ha₁,
      word_write_self hseg (by omega) (by decide)]
  · rw [word_write_self hseg₁ (by omega) (h.head_lt b.bucket)]
    rfl

theorem release_inv (h : Inv a live freed n free []) (hg : g ∈ live) :
    ∃ k a' free', a.release g.ref = .ok (k, a') ∧
      Inv a' (live.erase g) (g :: freed) n free' [] := by
  have hretired := h.retire hg
  cases hblock : g.ref.block with
  | none =>
    rw [hblock] at hretired
    exact ⟨0, a, free, release_of_bare ((h.held g hg).bare_of_block hblock), hretired⟩
  | some b =>
    have hb := (h.held g hg).of_block hblock
    rcases hb.fields with ⟨hinline, hne, hnat, hseg, hoff, hclass⟩
    have hok := sizeClass_spec hclass
    rw [hblock, Option.toList_some] at hretired
    have htable := hretired.withFreeTable
    rcases exists_freeTable a with ⟨f, hf⟩
    have hrel : a.release g.ref = if a.withFreeTable.ownsSegment g.ref b.size then
          .ok (b.size, (a.withFreeTable.setHoles (b.seg :: a.withFreeTable.holes)).setSegment
            b.seg { data := [], cap := 0 })
        else
          .ok (0, ((a.withFreeTable.write b.seg b.off (putUint 8 0)).write b.seg (b.off + 8)
            (putUint 8 (a.withFreeTable.head b.bucket))).setHead b.bucket
            ((b.seg + 1) * 2 ^ 32 + b.off)) := by
      simp [release, hinline, hne, (view_of_block h hg hb).1, hclass, hseg, hoff]
    rw [hrel]
    split
    next hown =>
      -- the block is its segment
      simp only [ownsSegment, Bool.and_eq_true, beq_iff_eq, hoff, hseg] at hown
      exact ⟨_, _, free, rfl, htable.dropSegment hf hown.1.1.2 hown.2⟩
    next hown =>
      -- a block above a segment's size would own it, so this one is shared
      have hsmall : b.size ≤ segmentBytes := by
        by_contra hbig
        rcases hb.whole (Nat.lt_of_not_le hbig) with ⟨h0, hcap, hlen⟩
        refine hown ?_
        have hded : dedicatedBlock b.size = true := by
          refine decide_eq_true ?_
          omega
        simp [ownsSegment, hded, hoff, hseg, h0, hcap, hlen]
      have hshared := hok.shared.2 hsmall
      have hseg25 : b.seg < 2 ^ 25 := by
        rw [← hseg, Ref.segment_eq]
        exact Nat.mod_lt _ (by decide)
      exact ⟨_, _, b :: free, rfl,
        htable.linkBlock hf (hok.block_eq hshared) hshared ⟨hok.bucket_lt, hseg25⟩⟩

/-! ## Readers of a released reference -/

/-- The block of a released reference has an owner again, and of the same generation. -/
def Reissued (live : List Handed) (g : Handed) : Prop :=
  ∃ l ∈ live, l.ref.block ≠ none ∧ l.ref.segment = g.ref.segment ∧
    l.ref.offset = g.ref.offset ∧ l.ref.generation = g.ref.generation

instance decidableReissued (live : List Handed) (g : Handed) : Decidable (Reissued live g) :=
  inferInstanceAs (Decidable (∃ l ∈ live, l.ref.block ≠ none ∧ l.ref.segment = g.ref.segment ∧
    l.ref.offset = g.ref.offset ∧ l.ref.generation = g.ref.generation))

theorem Retired.fields {owned : List Block} (hr : Retired a live owned g b)
    (hblock : g.ref.block = some b) : g.ref.segment = b.seg ∧ g.ref.offset = b.off := by
  rcases isInline_block hr.drawn hr.generation with ⟨hinline, hne, -⟩
  rw [Ref.block, if_neg (by simp [hinline, hne])] at hblock
  rcases Option.map_eq_some_iff.1 hblock with ⟨c, _, rfl⟩
  exact ⟨rfl, rfl⟩

/-- The header of a released block does not match unless the block was handed out again with the
same generation. -/
theorem refused_of_retired (h : Inv a live freed n free []) (hg : g ∈ freed)
    (hblock : g.ref.block = some b) (hnot : ¬ Reissued live g) :
    a.view g.ref = .error .stale ∧ a.release g.ref = .error .stale := by
  have hretired := h.retired g hg b hblock
  have hfields := hretired.fields hblock
  rcases hretired with ⟨hdrawn, hgen, hlt, hstart, hlater⟩
  rcases isInline_block hdrawn hgen with ⟨hinline, hne, hnat⟩
  have hstale : (a.data b.seg).length < b.off + 8 + g.ref.length ∨
      a.word b.seg b.off ≠ g.ref.generation.toNat := by
    rw [hnat]
    rcases hstart with ⟨_, hnil⟩ | ⟨c, hc, hcseg, hcoff⟩
    · rw [hnil]
      simp
    · right
      rw [← hcseg, ← hcoff]
      rw [append_nil] at hc
      rcases mem_append.1 hc with hc | hc
      · -- the block is another live reference's by now, of another generation
        rcases mem_blocksOf.1 hc with ⟨l, hl, hlblock⟩
        have hb := (h.held l hl).of_block hlblock
        rcases hb.fields with ⟨-, -, -, hlseg, hloff, -⟩
        rw [hb.header]
        refine fun hsame => hnot ⟨l, hl, by simp [hlblock], ?_, ?_, ?_⟩
        · rw [hlseg, hcseg, hfields.1]
        · rw [hloff, hcoff, hfields.2]
        · rw [hb.generation, hgen, hsame]
      · rw [(h.freeBlock c hc).2.2.2]
        have := (genOf_bounds hdrawn).1
        omega
  have hview : a.view g.ref = .error .stale := by
    rw [view, if_neg (by simp [hinline]), if_neg hne, hfields.1, hfields.2,
      if_neg (not_le.2 hlt), if_pos hstale]
  refine ⟨hview, ?_⟩
  rw [release, if_neg (by simp [hinline]), if_neg hne, hview]

/-- A generation comes back only after all others were drawn. -/
theorem generations_le_of_reissued (h : Inv a live freed n free []) (hg : g ∈ freed)
    (hblock : g.ref.block = some b) (hagain : Reissued live g) : generations ≤ n - g.draw := by
  have hretired := h.retired g hg b hblock
  have hfields := hretired.fields hblock
  rcases hretired with ⟨hdrawn, hgen, -, -, hlater⟩
  rcases hagain with ⟨l, hl, hlblock, hseg, hoff, hsame⟩
  rcases Option.ne_none_iff_exists'.1 hlblock with ⟨c, hc⟩
  have hb := (h.held l hl).of_block hc
  rcases hb.fields with ⟨-, -, hlnat, hlseg, hloff, -⟩
  have hdraw := hlater l hl c hc (by rw [← hlseg, hseg, hfields.1])
    (by rw [← hloff, hoff, hfields.2])
  have hln := h.draw_le l (mem_append_left _ hl)
  by_contra hnear
  refine genOf_ne hdrawn hdraw (by omega) ?_
  rw [← hlnat, hsame, (isInline_block hdrawn hgen).2.2]

end Calls

/-! ## Runs -/

/-- The arena after a release; a refused one leaves it as it is. -/
def afterRelease (a : Arena) (r : Ref) : Arena :=
  match a.release r with
  | .ok (_, a') => a'
  | .error _ => a

/-- `Run a live freed n`: a sequence of calls leads to `a`, with the references `live` in use,
those in `freed` released, and `n` generations drawn. -/
inductive Run : Arena → List Handed → List Handed → Nat → Prop where
  | init : Run empty [] [] 0
  | allocEmpty {a a' : Arena} {live freed : List Handed} {n : Nat} {r : Ref} :
      Run a live freed n → a.alloc [] = .ok (r, a') → Run a' (⟨r, [], n⟩ :: live) freed n
  | alloc {a a' : Arena} {live freed : List Handed} {n : Nat} {r : Ref} {value : Bytes} :
      Run a live freed n → value ≠ [] → a.alloc value = .ok (r, a') →
        Run a' (⟨r, value, n + 1⟩ :: live) freed (n + 1)
  | allocInline {a a' : Arena} {live freed : List Handed} {n : Nat} {r : Ref} {value : Bytes} :
      Run a live freed n → a.allocInline value = some (r, a') →
        Run a' (⟨r, value, n + 1⟩ :: live) freed (n + 1)
  | free {a : Arena} {live freed : List Handed} {n : Nat} {g : Handed} :
      Run a live freed n → g ∈ live →
        Run (a.afterRelease g.ref) (live.erase g) (g :: freed) n
  | freeAgain {a : Arena} {live freed : List Handed} {n : Nat} {g : Handed} :
      Run a live freed n → g ∈ freed → ¬ Reissued live g →
        Run (a.afterRelease g.ref) live freed n

/-- What a run keeps: the invariant, and that a released reference without a block is one
that `release` ignores. -/
theorem Run.keeps {a : Arena} {live freed : List Handed} {n : Nat} (run : Run a live freed n) :
    (∃ free, Inv a live freed n free []) ∧
      ∀ g ∈ freed, g.ref.block = none → g.ref.isInline = true ∨ g.ref.generation = 0 := by
  induction run with
  | init => exact ⟨⟨[], inv_empty⟩, by simp⟩
  | allocEmpty _ halloc ih =>
    rcases ih with ⟨⟨free, h⟩, hbare⟩
    cases halloc
    exact ⟨⟨free, h.publishBare (.empty rfl rfl) (show Ref.zero.block = none by decide) le_rfl⟩,
      hbare⟩
  | alloc _ hvalue halloc ih =>
    rcases ih with ⟨⟨free, h⟩, hbare⟩
    exact ⟨alloc_inv h hvalue halloc, hbare⟩
  | allocInline _ halloc ih =>
    rcases ih with ⟨⟨free, h⟩, hbare⟩
    exact ⟨⟨free, allocInline_inv h halloc⟩, hbare⟩
  | free _ hg ih =>
    rcases ih with ⟨⟨free, h⟩, hbare⟩
    rcases release_inv h hg with ⟨k, a', free', hrel, h'⟩
    rw [afterRelease, hrel]
    refine ⟨⟨free', h'⟩, fun f hf hnone => ?_⟩
    rcases mem_cons.1 hf with rfl | hf
    · exact (h.held f hg).bare_of_block hnone
    · exact hbare f hf hnone
  | @freeAgain a live freed n g _ hg hnot ih =>
    rcases ih with ⟨⟨free, h⟩, hbare⟩
    have hsame : a.afterRelease g.ref = a := by
      cases hblock : g.ref.block with
      | none => rw [afterRelease, release_of_bare (hbare g hg hblock)]
      | some b => rw [afterRelease, (refused_of_retired h hg hblock hnot).2]
    rw [hsame]
    exact ⟨⟨free, h⟩, hbare⟩

/-- Two references share no byte of the arena. -/
def Ref.Disjoint (r s : Ref) : Prop :=
  ∀ b c, r.block = some b → s.block = some c → b.Apart c

/-- After any run, every live reference reads back the value it was handed out for and can be
released, live references are disjoint, and a released reference that had a block is refused
unless the block's present owner has the same generation, which takes a whole round of the
generation counter. -/
theorem run_safe {a : Arena} {live freed : List Handed} {n : Nat} (run : Run a live freed n) :
    (∀ g ∈ live, a.view g.ref = .ok g.value ∧ a.viewKnownLive g.ref = .ok g.value ∧
      ∃ k a', a.release g.ref = .ok (k, a')) ∧
    live.Pairwise (fun g k => g.ref.Disjoint k.ref) ∧
    (∀ g ∈ freed, g.ref.block ≠ none → ¬ Reissued live g →
      a.view g.ref = .error .stale ∧ a.release g.ref = .error .stale) ∧
    ∀ g ∈ freed, g.ref.block ≠ none → Reissued live g → generations ≤ n - g.draw := by
  rcases run.keeps.1 with ⟨free, h⟩
  refine ⟨?_, ?_, ?_, ?_⟩
  · intro g hg
    rcases view_of_held h hg with ⟨hview, hknown⟩
    rcases release_inv h hg with ⟨k, a', _, hrel, _⟩
    exact ⟨hview, hknown, k, a', hrel⟩
  · have hapart := h.apart
    rw [append_nil, pairwise_append] at hapart
    refine (pairwise_filterMap.1 hapart.1).imp ?_
    intro g k hpair b c hb hc
    exact hpair b hb c hc
  · intro g hg hblock hnot
    rcases Option.ne_none_iff_exists'.1 hblock with ⟨b, hb⟩
    exact refused_of_retired h hg hb hnot
  · intro g hg hblock hagain
    rcases Option.ne_none_iff_exists'.1 hblock with ⟨b, hb⟩
    exact generations_le_of_reissued h hg hb hagain

def oneBlock (generation : Nat) (bytes : Bytes) (free : Option FreeTable) : Arena :=
  { segments := [{ data := putUint 8 generation ++ bytes ++ List.replicate 7 0, cap := 192 }]
    free
    generation }

def emptied : FreeTable :=
  { heads := List.replicate freeBucketCount 0, holes := [] }

theorem run_safe_reused :
    let a := oneBlock 2 [9, 8, 7, 6, 5, 4, 3, 2, 1] (some emptied)
    a.view ⟨9, 2⟩ = .ok [9, 8, 7, 6, 5, 4, 3, 2, 1] ∧
      a.view ⟨9, 1⟩ = .error .stale ∧ a.release ⟨9, 1⟩ = .error .stale := by
  have first : Run (oneBlock 1 [1, 2, 3, 4, 5, 6, 7, 8, 9] none)
      [⟨⟨9, 1⟩, [1, 2, 3, 4, 5, 6, 7, 8, 9], 1⟩] [] 1 :=
    Run.init.alloc (by decide) (by decide +kernel)
  have released := first.free mem_cons_self
  have second : Run (oneBlock 2 [9, 8, 7, 6, 5, 4, 3, 2, 1] (some emptied))
      [⟨⟨9, 2⟩, [9, 8, 7, 6, 5, 4, 3, 2, 1], 2⟩] [⟨⟨9, 1⟩, [1, 2, 3, 4, 5, 6, 7, 8, 9], 1⟩] 2 :=
    released.alloc (by decide) (by decide +kernel)
  rcases run_safe second with ⟨hlive, _, hfreed, _⟩
  exact ⟨(hlive _ mem_cons_self).1, hfreed _ mem_cons_self (by decide +kernel) (by decide +kernel)⟩

/-- An inline value outlives its release: the reference carries the bytes, and `release` has
no block to take back. -/
theorem inline_outlives_release :
    ∃ (r : Ref) (a : Arena), empty.allocInline [1] = some (r, a) ∧ a.release r = .ok (0, a) ∧
      a.view r = .ok [1] :=
  ⟨_, _, rfl, rfl, rfl⟩

end Arena
end SnugKV
