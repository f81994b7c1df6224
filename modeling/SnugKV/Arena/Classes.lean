import SnugKV.Arena.Arena

/-!
# Classes — size classes, reference fields and generations of the arena

* a size class holds the value and its header, and a bucket has one block size
  (`sizeClass_spec`), so a block taken from a free list fits whatever is put on that list;
* a segment made for a block holds it, and is shared only up to `segmentBytes`;
* the fields of a reference come back as they were packed, and an inline reference carries
  its bytes;
* the generation drawn `n`-th is `genOf n`, which repeats after `2^18 - 1` draws.
-/

namespace SnugKV
namespace Arena

open Lib

/-! ## Size classes -/

def bucketBlock (bucket : Nat) : Nat :=
  if bucket ≤ 2 then 16 * (bucket + 1)
  else if bucket = 3 then 56
  else if bucket ≤ 8 then 64 + 16 * (bucket - 4)
  else if bucket ≤ 12 then 160 + 32 * (bucket - 9)
  else if bucket ≤ 20 then 272 + 16 * (bucket - 13)
  else if bucket ≤ 22 then 448 + 64 * (bucket - 21)
  else if bucket ≤ 38 then 544 + 32 * (bucket - 23)
  else if bucket ≤ 50 then nextBlock^[bucket - 38] 1024
  else if bucket ≤ 57 then goSmallSizeClasses.getD (bucket - 51) 0
  else if bucket = 128 then 24
  else if bucket = 129 then 88
  else 400 + 16 * (bucket - 130)

variable {size n block : Nat}

theorem geometricClass_spec (hsize : size ≤ 4096) :
    ∀ (fuel bucket : Nat), 38 ≤ bucket → bucket + fuel = 50 →
      let r := geometricClass size fuel bucket (nextBlock^[bucket - 38] 1024)
      38 ≤ r.1 ∧ r.1 ≤ 50 ∧ r.2 = nextBlock^[r.1 - 38] 1024 ∧ size ≤ r.2 := by
  intro fuel
  induction fuel with
  | zero =>
    intro bucket _ hb
    have : bucket = 50 := by omega
    subst this
    -- twelve steps end at half a segment
    have hlast : nextBlock^[50 - 38] 1024 = 4096 := by decide
    simp only [geometricClass]
    exact ⟨by omega, le_rfl, trivial, by omega⟩
  | succ fuel ih =>
    intro bucket h38 hb
    simp only [geometricClass]
    by_cases hlt : nextBlock^[bucket - 38] 1024 < size
    · have hstep : nextBlock (nextBlock^[bucket - 38] 1024) = nextBlock^[bucket + 1 - 38] 1024 := by
        rw [show bucket + 1 - 38 = (bucket - 38) + 1 by omega, Function.iterate_succ_apply']
      rw [if_pos hlt, hstep]
      exact ih (bucket + 1) (by omega) (by omega)
    · rw [if_neg hlt]
      exact ⟨h38, by omega, rfl, by omega⟩

theorem dedicatedBlockSize_spec : size ≤ dedicatedBlockSize size ∧
      (dedicatedBlockSize size ∈ goSmallSizeClasses ∨ 32768 < dedicatedBlockSize size) := by
  unfold dedicatedBlockSize
  cases hfind : goSmallSizeClasses.find? (fun c => decide (size ≤ c)) with
  | some c =>
    have hle := List.find?_some hfind
    exact ⟨of_decide_eq_true hle, Or.inl (List.mem_of_find?_eq_some hfind)⟩
  | none =>
    have hlast := List.find?_eq_none.1 hfind 32768 (by decide)
    simp only [decide_eq_true_eq, not_le] at hlast
    simp only [roundUp, goPageBytes]
    exact ⟨by omega, Or.inr (by omega)⟩

theorem shared_large_buckets : ∀ c ∈ goSmallSizeClasses, c ≤ segmentBytes →
    sharedLargeBucketBase + goSmallSizeClasses.idxOf c ≤ 57 ∧
      c = bucketBlock (sharedLargeBucketBase + goSmallSizeClasses.idxOf c) := by
  decide

/-- What a size class promises. -/
structure ClassOK (size bucket block : Nat) : Prop where
  fits : size ≤ block
  min : 16 ≤ block
  bucket_lt : bucket < freeBucketCount
  block_eq : bucket ≠ dedicatedBucket → block = bucketBlock bucket
  shared : bucket ≠ dedicatedBucket ↔ block ≤ segmentBytes

theorem smallClass_table : ∀ i : Fin 1025, 16 ≤ i.val →
    i.val ≤ (smallClass i.val).2 ∧ (smallClass i.val).1 < freeBucketCount ∧
      (smallClass i.val).1 ≠ dedicatedBucket ∧
      (smallClass i.val).2 = bucketBlock (smallClass i.val).1 ∧
      (smallClass i.val).2 ≤ segmentBytes := by
  decide +kernel

theorem smallClass_spec (h16 : 16 ≤ size) (h : size ≤ 1024) :
    ClassOK size (smallClass size).1 (smallClass size).2 := by
  rcases smallClass_table ⟨size, by omega⟩ h16 with ⟨hfits, hlt, hne, heq, hle⟩
  exact ⟨hfits, h16.trans hfits, hlt, fun _ => heq, ⟨fun _ => hle, fun _ => hne⟩⟩

theorem geometric_buckets : ∀ i : Fin 13,
    nextBlock^[i.val] 1024 = bucketBlock (38 + i.val) ∧ nextBlock^[i.val] 1024 ≤ segmentBytes := by
  decide

theorem midClass_spec (hlo : 1024 < size) (hhi : size ≤ segmentBytes / 2) :
    ClassOK size (geometricClass size 12 38 1024).1 (geometricClass size 12 38 1024).2 := by
  rcases @geometricClass_spec size hhi 12 38 le_rfl rfl with ⟨h38, h50, heq, hle⟩
  rw [show nextBlock^[38 - 38] 1024 = 1024 from rfl] at h38 h50 heq hle
  set r := geometricClass size 12 38 1024
  rcases geometric_buckets ⟨r.1 - 38, by omega⟩ with ⟨hb, hseg⟩
  simp only [Nat.add_sub_cancel' h38] at hb
  refine ⟨hle, by omega, ?_, fun _ => heq.trans hb, ?_⟩
  · unfold freeBucketCount
    omega
  · unfold dedicatedBucket
    exact ⟨fun _ => heq ▸ hseg, fun _ => by omega⟩

theorem largeClass_spec (hsize : 4096 < size) :
    ClassOK size (largeClass size).1 (largeClass size).2 := by
  rcases @dedicatedBlockSize_spec size with ⟨hle, hmem⟩
  unfold largeClass
  simp only
  split
  · rename_i hshared
    rcases shared_large_buckets _ hshared.2 hshared.1 with ⟨h57, heq⟩
    refine ⟨hle, by omega, ?_, fun _ => heq, ?_⟩
    · unfold freeBucketCount
      omega
    · unfold dedicatedBucket
      exact ⟨fun _ => hshared.1, fun _ => by omega⟩
  · rename_i hshared
    have hbig : ¬ dedicatedBlockSize size ≤ segmentBytes := by
      intro hsmall
      rcases hmem with hin | hgt
      · exact hshared ⟨hsmall, hin⟩
      · unfold segmentBytes at hsmall
        omega
    have hlt : dedicatedBucket < freeBucketCount := by decide
    refine ⟨hle, by omega, hlt, fun hne => absurd rfl hne, ?_⟩
    exact ⟨fun hne => absurd rfl hne, fun hsmall => absurd hsmall hbig⟩

/-- Every size class holds its value behind a header, and its bucket determines its block. -/
theorem sizeClass_spec {bucket : Nat} (h : sizeClass n = some (bucket, block)) :
    ClassOK (n + 8) bucket block := by
  unfold sizeClass at h
  simp only at h
  set size := if n + 8 < 16 then 16 else n + 8 with hsize
  have hn : n + 8 ≤ size ∧ 16 ≤ size := by
    rw [hsize]
    split <;> omega
  have hweaken : ∀ {r : Nat × Nat}, ClassOK size r.1 r.2 → r = (bucket, block) →
      ClassOK (n + 8) bucket block := by
    rintro r hok rfl
    exact ⟨hn.1.trans hok.fits, hok.min, hok.bucket_lt, hok.block_eq, hok.shared⟩
  split_ifs at h with hsmall hmid hmax
  · exact hweaken (smallClass_spec hn.2 hsmall) (Option.some.inj h)
  · exact hweaken (midClass_spec (by omega) hmid) (Option.some.inj h)
  · unfold segmentBytes at hmid
    exact hweaken (largeClass_spec (by omega)) (Option.some.inj h)

/-! ## Segment sizes -/

theorem segmentSizeForBlock_spec (h : 0 < block) : block ≤ segmentSizeForBlock block ∧
      (segmentSizeForBlock block ≤ segmentBytes ∨ segmentSizeForBlock block = block) := by
  unfold segmentSizeForBlock
  split_ifs with h1 h2 h3
  · exact ⟨le_rfl, Or.inr rfl⟩
  · exact ⟨by unfold segmentBytes; omega, Or.inl le_rfl⟩
  · exact ⟨le_rfl, Or.inr rfl⟩
  · exact ⟨Nat.le_mul_of_pos_left _ (by omega), Or.inl (Nat.div_mul_le_self _ _)⟩

theorem segmentSizeForBlock_dedicated (h : dedicatedBlock block = true) :
    segmentSizeForBlock block = block := by
  have hlt : segmentBytes / 2 < block := of_decide_eq_true h
  unfold segmentBytes at hlt
  unfold segmentSizeForBlock segmentBytes
  split_ifs with h1 h2 h3
  · rfl
  · omega
  · rfl
  · have : 8 * 2 ^ 10 / block = 1 := Nat.div_eq_of_lt_le (by omega) (by omega)
    rw [this, one_mul]

theorem segmentSizeForAllocation_spec (h : 0 < block) (existing : Nat) :
    block ≤ segmentSizeForAllocation block existing ∧
      (segmentSizeForAllocation block existing ≤ segmentBytes ∨
        segmentSizeForAllocation block existing = block) := by
  unfold segmentSizeForAllocation
  simp only
  split
  · exact segmentSizeForBlock_spec h
  · set target := if existing = 1 then secondSmallSegmentBytes
      else if existing = 0 ∧ block = 24 then tinyFirstSegmentBytes else firstSmallSegmentBytes
      with ht
    have htarget : target ≤ segmentBytes := by
      rw [ht]
      split_ifs <;> decide
    split_ifs with h1 h2
    · exact ⟨le_rfl, Or.inr rfl⟩
    · exact ⟨le_rfl, Or.inr rfl⟩
    · refine ⟨Nat.le_mul_of_pos_left _ (by omega), Or.inl ?_⟩
      exact (Nat.div_mul_le_self _ _).trans htarget

/-! ## Fields of a reference -/

theorem Ref.segment_eq (r : Ref) : r.segment = r.location.toNat / 2 ^ 39 % 2 ^ 25 :=
  toNat_shiftRight_and (s := refOffsetBits + refLengthBits) (by decide) rfl

theorem Ref.offset_eq (r : Ref) : r.offset = r.location.toNat / 2 ^ 26 % 2 ^ 13 :=
  toNat_shiftRight_and (s := refLengthBits) (by decide) rfl

theorem Ref.length_eq (r : Ref) : r.length = r.location.toNat % 2 ^ 26 := toNat_and_mask rfl

theorem newRef_spec {segment offset length : Nat} {generation : UInt64} {r : Ref}
    (h : newRef segment offset length generation = .ok r) :
    r.segment = segment ∧ r.offset = offset ∧ r.length = length ∧ r.generation = generation := by
  unfold newRef at h
  split_ifs at h with hseg hoff hlen
  cases h
  rw [show refSegmentMask.toNat = 2 ^ 25 - 1 from rfl] at hseg
  rw [show refOffsetMask.toNat = 2 ^ 13 - 1 from rfl] at hoff
  rw [show refLengthMask.toNat = 2 ^ 26 - 1 from rfl] at hlen
  have eseg : (UInt64.ofNat segment).toNat = segment := by
    rw [UInt64.toNat_ofNat']
    omega
  have eoff : (UInt64.ofNat offset).toNat = offset := by
    rw [UInt64.toNat_ofNat']
    omega
  have elen : (UInt64.ofNat length).toNat = length := by
    rw [UInt64.toNat_ofNat']
    omega
  have hlow : (UInt64.ofNat offset <<< refLengthBits ||| UInt64.ofNat length).toNat =
      offset * 2 ^ 26 + length := by
    nth_rewrite 2 [← eoff]
    nth_rewrite 2 [← elen]
    refine toNat_shiftLeft_or (by decide) ?_ ?_
    · show (UInt64.ofNat length).toNat < 2 ^ 26
      omega
    · show (UInt64.ofNat offset).toNat * 2 ^ 26 < 2 ^ 64
      omega
  have hloc : (UInt64.ofNat segment <<< (refOffsetBits + refLengthBits) |||
      UInt64.ofNat offset <<< refLengthBits ||| UInt64.ofNat length).toNat =
      segment * 2 ^ 39 + (offset * 2 ^ 26 + length) := by
    rw [UInt64.or_assoc, ← hlow]
    nth_rewrite 2 [← eseg]
    refine toNat_shiftLeft_or (by decide) ?_ ?_
    · show _ < 2 ^ 39
      omega
    · show (UInt64.ofNat segment).toNat * 2 ^ 39 < 2 ^ 64
      omega
  refine ⟨?_, ?_, ?_, rfl⟩
  · rw [Ref.segment_eq, hloc]
    omega
  · rw [Ref.offset_eq, hloc]
    omega
  · rw [Ref.length_eq, hloc]
    omega

theorem isInline_iff (r : Ref) : r.isInline = true ↔ r.generation.toNat / 2 ^ 18 % 2 = 1 := by
  have hbit := and_two_pow_eq_zero (w := r.generation) (m := inlineMarker) (k := 18) rfl
  rw [Ref.isInline, bne_iff_ne, Ne, hbit]
  omega

theorem inlineGeneration_toNat (hn : n ≤ 8) (g : UInt64) :
    (inlineMarker ||| UInt64.ofNat n <<< inlineLengthShift |||
      (g &&& inlineGenerationMask)).toNat = 2 ^ 18 + (n * 2 ^ 14 + g.toNat % 2 ^ 14) := by
  have hg : (g &&& inlineGenerationMask).toNat = g.toNat % 2 ^ 14 := toNat_and_mask rfl
  have en : (UInt64.ofNat n).toNat = n := by
    rw [UInt64.toNat_ofNat']
    omega
  have hlow : (UInt64.ofNat n <<< inlineLengthShift ||| (g &&& inlineGenerationMask)).toNat =
      n * 2 ^ 14 + g.toNat % 2 ^ 14 := by
    rw [← hg]
    nth_rewrite 2 [← en]
    refine toNat_shiftLeft_or (by decide) ?_ ?_
    · rw [hg]
      exact Nat.mod_lt _ (by decide)
    · show (UInt64.ofNat n).toNat * 2 ^ 14 < 2 ^ 64
      omega
  rw [UInt64.or_assoc, ← hlow]
  refine (toNat_shiftLeft_or (a := 1) (s := 18) (by decide) ?_ (by decide)).trans rfl
  show _ < 2 ^ 18
  omega

theorem inline_allocInline {a a' : Arena} {value : Bytes} {r : Ref}
    (h : a.allocInline value = some (r, a')) :
    r.isInline = true ∧ r.inline = some value ∧ a' = a.nextGeneration := by
  unfold allocInline at h
  split_ifs at h with hlen
  cases h
  have hn : 1 ≤ value.length ∧ value.length ≤ 8 := by omega
  have hgen := inlineGeneration_toNat hn.2 (UInt64.ofNat a.nextGeneration.generation)
  set bytes := value ++ List.replicate (8 - value.length) 0 with hbytes
  have hlen8 : bytes.length = 8 := by
    simp [hbytes]
    omega
  have hinline : Ref.isInline ⟨UInt64.ofNat (getUint bytes), inlineMarker |||
      UInt64.ofNat value.length <<< inlineLengthShift |||
      (UInt64.ofNat a.nextGeneration.generation &&& inlineGenerationMask)⟩ = true := by
    rw [isInline_iff, hgen]
    omega
  refine ⟨hinline, ?_, rfl⟩
  unfold Ref.inline
  simp only [hinline, Bool.not_true, Bool.false_eq_true, if_false]
  -- the length field sits above the generation bits
  have hfield : (((inlineMarker ||| UInt64.ofNat value.length <<< inlineLengthShift |||
      (UInt64.ofNat a.nextGeneration.generation &&& inlineGenerationMask)) &&&
      inlineLengthMask) >>> inlineLengthShift).toNat = value.length := by
    rw [UInt64.toNat_shiftRight, UInt64.toNat_and, hgen,
      show inlineLengthShift.toNat % 64 = 14 from rfl, Nat.shiftRight_and_distrib,
      show inlineLengthMask.toNat >>> 14 = 2 ^ 4 - 1 from rfl, Nat.and_two_pow_sub_one_eq_mod,
      Nat.shiftRight_eq_div_pow]
    omega
  have hword : (UInt64.ofNat (getUint bytes)).toNat = getUint bytes := by
    refine Nat.mod_eq_of_lt ?_
    have := getUint_lt bytes
    rwa [hlen8] at this
  rw [hfield, if_neg (by omega), hword]
  have hput := putUint_getUint bytes
  rw [hlen8] at hput
  rw [hput, hbytes, List.take_left]

/-! ## Generations -/

def generations : Nat := 2 ^ 18 - 1

/-- The generation drawn `n`-th; 0 is none. -/
def genOf : Nat → Nat
  | 0 => 0
  | n + 1 => n % generations + 1

theorem nextGeneration_spec {a : Arena} (h : a.generation = genOf n) :
    a.nextGeneration.generation = genOf (n + 1) := by
  have hnext : a.nextGeneration.generation =
      if generations < a.generation + 1 then 1 else a.generation + 1 := rfl
  rw [hnext, h]
  cases n with
  | zero => rfl
  | succ n =>
    have hlt : n % generations < generations := Nat.mod_lt _ (by decide)
    have hmod : (n + 1) % generations = (n % generations + 1) % generations := by
      rw [Nat.add_mod n 1, Nat.mod_eq_of_lt (show 1 < generations by decide)]
    show (if generations < n % generations + 1 + 1 then 1 else n % generations + 1 + 1) =
      (n + 1) % generations + 1
    rw [hmod]
    by_cases hwrap : n % generations + 1 = generations
    · rw [if_pos (by omega), hwrap, Nat.mod_self]
    · rw [if_neg (by omega), Nat.mod_eq_of_lt (by omega : n % generations + 1 < generations)]

theorem genOf_bounds (h : 0 < n) : 1 ≤ genOf n ∧ genOf n < 2 ^ 18 := by
  cases n with
  | zero => exact absurd h (lt_irrefl 0)
  | succ n =>
    have hlt : n % generations < generations := Nat.mod_lt _ (by decide)
    have hgen : generations = 2 ^ 18 - 1 := rfl
    simp only [genOf]
    omega

/-- Fewer than `2^18 - 1` draws apart, two generations differ. -/
theorem genOf_ne {m : Nat} (hm : 0 < m) (hlt : m < n) (hnear : n - m < generations) :
    genOf m ≠ genOf n := by
  rcases m with _ | m
  · exact absurd hm (lt_irrefl 0)
  · rcases n with _ | n
    · omega
    · simp only [genOf]
      intro heq
      have hmod : m % generations = n % generations := by omega
      have hdvd : generations ∣ n - m := (Nat.modEq_iff_dvd' (by omega)).1 hmod
      have := Nat.le_of_dvd (by omega) hdvd
      omega

theorem isInline_block {r : Ref} (hn : 0 < n) (h : r.generation = UInt64.ofNat (genOf n)) :
    r.isInline = false ∧ r.generation ≠ 0 ∧ r.generation.toNat = genOf n := by
  rcases genOf_bounds hn with ⟨hpos, hlt⟩
  have hnat : r.generation.toNat = genOf n := by
    rw [h, UInt64.toNat_ofNat']
    omega
  refine ⟨?_, ?_, hnat⟩
  · rw [Bool.eq_false_iff, Ne, isInline_iff, hnat]
    omega
  · intro h0
    rw [h0] at hnat
    simp at hnat
    omega

end Arena
end SnugKV
