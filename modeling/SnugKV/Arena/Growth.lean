import SnugKV.Arena.Safety

/-!
# Arena growth — the memory an arena holds, and its prediction

`growthFor` walks a list of lengths as `alloc` would, on copies of the list heads, the number of
holes and the room of the last segment, and adds up what would be reserved.

* `planOne`: one length of the simulation;
* `Follows`: a simulation started from one arena has come to where another arena is;
* `growthFor_eq`: after any run, the prediction is the increase of `memoryBytes`.
-/

namespace SnugKV
namespace Arena

open Lib List

/-! ## Memory in use -/

def segmentMetadata : Nat := 24

/-- `cap(a.segments)` when the slice has `n` segments: it grows in `alloc` only, one segment at a
time, and is doubled when it is full. -/
def segmentSlots : Nat → Nat
  | 0 => 0
  | n + 1 =>
    let capacity := segmentSlots n
    if n = capacity then
      if 2 * capacity = 0 then 1 else 2 * capacity
    else capacity

def memoryBytes (a : Arena) : Nat :=
  segmentSlots a.segments.length * segmentMetadata + (a.segments.map Segment.cap).sum

/-! ## The simulation -/

structure Plan where
  /-- The copy of the list heads. -/
  heads : List Nat
  /-- How many holes are left. -/
  holes : Nat
  count : Nat
  capacity : Nat
  /-- Length and size of the segment that is filled at present. -/
  used : Nat
  size : Nat
  growth : Nat
  deriving DecidableEq, Repr

def planFrom (a : Arena) : Plan :=
  { heads := (a.free.map FreeTable.heads).getD (List.replicate freeBucketCount 0)
    holes := a.holes.length
    count := a.segments.length
    capacity := segmentSlots a.segments.length
    used := (a.data (a.segments.length - 1)).length
    size := a.capacity (a.segments.length - 1)
    growth := 0 }

/-- A new segment, and a larger slice when that is full. -/
def Plan.addSegment (p : Plan) (block : Nat) : Plan :=
  let size := segmentSizeForAllocation block p.count
  let next := if p.count = p.capacity then
      if p.capacity * 2 = 0 then 1 else p.capacity * 2
    else p.capacity
  { p with
    size
    used := 0
    growth := p.growth + size + (next - p.capacity) * segmentMetadata
    capacity := next
    count := p.count + 1 }

/-- One length; `none` is the panic of `class`.  The list links are read from the arena, which
the simulation does not change. -/
def planOne (a : Arena) (p : Plan) (n : Nat) : Option Plan :=
  if n = 0 then some p
  else
    match sizeClass n with
    | none => none
    | some (bucket, block) =>
      let address := p.heads.getD bucket 0
      if address ≠ 0 then
        let next := a.word (address / 2 ^ 32 - 1) (address % 2 ^ 32 + 8)
        some { p with heads := p.heads.set bucket next }
      else if dedicatedBlock block = true ∧ 0 < p.holes then
        some { p with holes := p.holes - 1, growth := p.growth + segmentSizeForBlock block }
      else
        let p := if p.size - p.used < block then p.addSegment block else p
        some { p with used := p.used + block }

def growthFor (a : Arena) (lengths : List Nat) : Option Nat :=
  (lengths.foldlM (planOne a) (planFrom a)).map Plan.growth

def allocAll (a : Arena) : List Bytes → Except ArenaFault Arena
  | [] => .ok a
  | value :: values =>
    match a.alloc value with
    | .error e => .error e
    | .ok (_, a) => allocAll a values

/-! ## What a stage does to the memory in use -/

section Stages

variable {a : Arena} {seg : Nat}

theorem segmentSlots_succ (n : Nat) : segmentSlots (n + 1) = if n = segmentSlots n then
      if segmentSlots n * 2 = 0 then 1 else segmentSlots n * 2
    else segmentSlots n := by
  rw [segmentSlots, mul_comm]

theorem memoryBytes_setData (bytes : Bytes) :
    (a.setData seg bytes).memoryBytes = a.memoryBytes := by
  have hcaps : (a.setData seg bytes).segments.map Segment.cap = a.segments.map Segment.cap := by
    refine ext_getElem? fun i => ?_
    simp only [setData, getElem?_map, getElem?_modify]
    cases a.segments[i]? with
    | none => rfl
    | some s => by_cases hi : seg = i <;> simp [hi]
  rw [memoryBytes, hcaps, length_setData, memoryBytes]

theorem memoryBytes_addSegment (s : Segment) :
    (a.addSegment s).memoryBytes = a.memoryBytes + s.cap +
      (segmentSlots (a.segments.length + 1) - segmentSlots a.segments.length) *
        segmentMetadata := by
  have hmono : segmentSlots a.segments.length ≤ segmentSlots (a.segments.length + 1) := by
    rw [segmentSlots_succ]
    split_ifs <;> omega
  have hslots : segmentSlots (a.segments.length + 1) * segmentMetadata =
      segmentSlots a.segments.length * segmentMetadata +
        (segmentSlots (a.segments.length + 1) - segmentSlots a.segments.length) *
          segmentMetadata := by
    rw [← add_mul, Nat.add_sub_cancel' hmono]
  simp only [memoryBytes, addSegment, length_append, length_singleton, map_append,
    sum_append, hslots, map_cons, map_nil, sum_singleton]
  omega

theorem sum_set_of_zero {c : Nat} : ∀ {l : List Nat} {i : Nat}, l[i]? = some 0 →
    (l.set i c).sum = l.sum + c
  | x :: l, 0, h => by
      obtain rfl : x = 0 := by simpa using h
      simp [add_comm]
  | x :: l, i + 1, h => by
      rw [set_cons_succ, sum_cons, sum_set_of_zero (by simpa using h), sum_cons, add_assoc]

theorem memoryBytes_setSegment (hseg : seg < a.segments.length) (hcap : a.capacity seg = 0)
    (s : Segment) : (a.setSegment seg s).memoryBytes = a.memoryBytes + s.cap := by
  have hzero : (a.segments.map Segment.cap)[seg]? = some 0 := by
    simpa [capacity, hseg] using hcap
  rw [memoryBytes, memoryBytes, setSegment, map_set, sum_set_of_zero hzero, length_set,
    add_assoc]

end Stages

/-! ## The simulation follows the allocations -/

/-- A simulation that reads the links of `a₀` stands where the arena `a` is: its list heads lead
through the free blocks of `a`, and it has counted what was reserved since `a₀`. -/
structure Follows (a₀ a : Arena) (free : List Block) (p : Plan) : Prop where
  heads : p.heads.length = freeBucketCount
  chain : ∀ k, Chain a₀ (p.heads.getD k 0) (free.filter (fun b => b.bucket = k))
  holes : p.holes = a.holes.length
  count : p.count = a.segments.length
  capacity : p.capacity = segmentSlots a.segments.length
  room : p.size - p.used =
    a.capacity (a.segments.length - 1) - (a.data (a.segments.length - 1)).length
  grown : a.memoryBytes = a₀.memoryBytes + p.growth

section Simulation

variable {a₀ a a₁ : Arena} {live freed : List Handed} {n : Nat} {free free' : List Block}
  {p : Plan} {seg off bucket block : Nat}

theorem Follows.start (h : Inv a live freed n free []) : Follows a a free a.planFrom where
  heads := by
    cases hf : a.free with
    | none => simp [planFrom, hf]
    | some f => simpa [planFrom, hf] using h.heads f hf
  chain := by
    intro k
    have hhead : a.planFrom.heads.getD k 0 = a.head k := by
      cases hf : a.free with
      | none =>
        simp only [planFrom, head, hf, Option.map_none, Option.getD_none,
          getD_eq_getElem?_getD, getElem?_replicate]
        split <;> rfl
      | some f => simp [planFrom, head, hf]
    rw [hhead]
    exact h.chain k
  holes := rfl
  count := rfl
  capacity := rfl
  room := rfl
  grown := rfl

theorem Chain.address_eq {x y : Nat} {l : List Block} (hx : Chain a₀ x l) (hy : Chain a y l) :
    x = y := by
  cases l with
  | nil => exact hx.trans hy.symm
  | cons b rest => exact hx.1.trans hy.1.symm

section

variable (h : Follows a₀ a free p)

include h

theorem Follows.write {q : Nat} {bs : Bytes}
    (hseg : seg < a.segments.length) (hfit : q + bs.length ≤ (a.data seg).length) :
    Follows a₀ (a.write seg q bs) free p := by
  have hdata : ∀ i, ((a.write seg q bs).data i).length = (a.data i).length := by
    intro i
    rw [Arena.write, data_setData hseg]
    split
    next hi => rw [hi, length_writeAt hfit]
    next => rfl
  refine { h with count := ?_, capacity := ?_, room := ?_, grown := ?_ }
  · rw [Arena.write, length_setData, h.count]
  · rw [Arena.write, length_setData, h.capacity]
  · rw [hdata, Arena.write, length_setData, capacity_setData, h.room]
  · rw [Arena.write, memoryBytes_setData, h.grown]

theorem Follows.fill {value : Bytes} (hseg : seg < a.segments.length)
    (hfit : off + 8 + value.length ≤ (a.data seg).length) :
    Follows a₀ (a.fill seg off value) free p := by
  have hdraw : Follows a₀ a.nextGeneration free p := { h with }
  have hheader : off + (putUint 8 a.nextGeneration.generation).length ≤ (a.data seg).length := by
    rw [length_putUint]
    omega
  refine (hdraw.write hseg hheader).write ?_ ?_
  · rwa [Arena.write, length_setData]
  · exact hfit.trans (length_data_write (a := a.nextGeneration) hseg hheader).ge

theorem Follows.take (hinv : Inv a live freed n free []) {size : Nat}
    (hsize : size ≠ 0) (hclass : sizeClass size = some (bucket, block))
    (hpop : Popped bucket free free') (htake : a.takeBlock bucket block = (a₁, seg, off)) :
    ∃ p', planOne a₀ p size = some p' ∧ Follows a₀ a₁ free' p' := by
  have hok := sizeClass_spec hclass
  have hhead : p.heads.getD bucket 0 = a.head bucket :=
    (h.chain bucket).address_eq (hinv.chain bucket)
  have htaken := takeBlock_taken a bucket block
  rw [htake] at htaken
  -- the chains of a simulation that pops nothing
  have hchain : a.head bucket = 0 →
      ∀ k, Chain a₀ (p.heads.getD k 0) (free'.filter (fun b => b.bucket = k)) := by
    intro hzero k
    have hk := h.chain k
    rw [hpop k]
    split
    next heq =>
      rw [heq, hhead, hzero] at hk ⊢
      rw [hk.nil_of_zero]
      rfl
    next => exact hk
  unfold planOne
  rw [if_neg hsize, hclass]
  simp only [hhead]
  cases htaken with
  | listed hne =>
    rw [if_pos hne]
    refine ⟨_, rfl, { h with heads := ?_, chain := fun k => ?_, holes := ?_ }⟩
    · rw [length_set, h.heads]
    · have hk := h.chain k
      rw [hpop k, getD_eq_getElem?_getD, getElem?_set]
      by_cases heq : k = bucket
      · -- the link is read where the head points, from the arena the simulation started with
        subst heq
        rw [if_pos rfl, if_pos rfl, if_pos (h.heads ▸ hok.bucket_lt), Option.getD_some]
        rw [hhead] at hk
        cases hlist : free.filter (fun b => b.bucket = k) with
        | nil =>
          rw [hlist] at hk
          exact absurd hk hne
        | cons b rest =>
          rw [hlist] at hk
          have hb : b ∈ free := mem_of_mem_filter (hlist ▸ mem_cons_self)
          rcases address_parts hk.1 (hinv.inside b (by simp [hb])).2.2 with ⟨hseg, hoff⟩
          rw [hseg, hoff]
          exact hk.2
      · rw [if_neg heq, if_neg (Ne.symm heq), ← getD_eq_getElem?_getD]
        exact hk
    · rw [holes_setHead, h.holes]
  | @hole _ rest hzero hholes hded =>
    rcases hinv.hole seg (by simp [hholes]) with ⟨hlt, hnil, hcap⟩
    have hpos : 0 < p.holes := by simp [h.holes, hholes]
    rw [if_neg (not_not.2 hzero), if_pos ⟨hded, hpos⟩]
    have hfill := data_of_getElem? (getElem?_setSegment (a := a.setHoles rest) hlt
      { data := replicate block 0, cap := segmentSizeForBlock block })
    have hlen : ((a.setHoles rest).setSegment seg
        { data := replicate block 0, cap := segmentSizeForBlock block }).segments.length =
          a.segments.length := by
      simp [setSegment, setHoles]
    refine ⟨_, rfl, { h with
      chain := hchain hzero, holes := ?_, count := ?_, capacity := ?_, room := ?_, grown := ?_ }⟩
    · have hrest : (a.setHoles rest).holes = rest := holes_setHoles (by simp [hholes]) rest
      calc p.holes - 1 = rest.length := by simp [h.holes, hholes]
        _ = (a.setHoles rest).holes.length := by rw [hrest]
    · rw [hlen, h.count]
    · rw [hlen, h.capacity]
    · -- the block fills its segment, and a hole had no room either
      rw [hlen, (hfill _).1, (hfill _).2, h.room]
      split
      next hlast =>
        rw [hlast, hcap, hnil, length_replicate, segmentSizeForBlock_dedicated hded]
        simp
      next => rfl
    · rw [memoryBytes_setSegment (a := a.setHoles rest) hlt hcap, ← add_assoc, ← h.grown]
      rfl
  | segment hzero hother hfull =>
    have hroom : p.size - p.used < block := by
      rw [h.room]
      rcases hfull with hnone | hfull
      · have hempty : a.segments = [] := length_eq_zero_iff.1 hnone
        have := hok.min
        simp only [Arena.capacity, hempty, getElem?_nil, Option.map_none, Option.getD_none]
        omega
      · exact hfull
    have hholes : ¬ (dedicatedBlock block = true ∧ 0 < p.holes) := by
      rwa [h.holes, length_pos_iff]
    rw [if_neg (not_not.2 hzero), if_neg hholes, if_pos hroom]
    have hslots : (p.addSegment block).capacity = segmentSlots (a.segments.length + 1) := by
      rw [segmentSlots_succ, ← h.capacity, ← h.count]
      rfl
    have hlen : ∀ s, (a.addSegment s).segments.length = a.segments.length + 1 := by
      simp [Arena.addSegment]
    refine ⟨_, rfl, ?_⟩
    refine { h with
      chain := hchain hzero, count := ?_, capacity := ?_, room := ?_, grown := ?_ }
    · rw [hlen, ← h.count]
      rfl
    · rw [hlen]
      exact hslots
    · rw [hlen, Nat.add_sub_cancel, (addSegment_last ..).1, (addSegment_last ..).2, ← h.count]
      simp [Plan.addSegment]
    · rw [memoryBytes_addSegment, h.grown, ← hslots, ← h.capacity, ← h.count]
      simp only [Plan.addSegment, add_assoc]
  | room hzero hother hlast hroom =>
    have hseg : a.segments.length - 1 = seg := by omega
    have hholes : ¬ (dedicatedBlock block = true ∧ 0 < p.holes) := by
      rwa [h.holes, length_pos_iff]
    have hrest := h.room
    rw [hseg] at hrest
    rw [if_neg (not_not.2 hzero), if_neg hholes, if_neg (by rwa [hrest])]
    refine ⟨_, rfl, { h with
      chain := hchain hzero, count := ?_, capacity := ?_, room := ?_, grown := ?_ }⟩
    · rw [length_setData, h.count]
    · rw [length_setData, h.capacity]
    · rw [length_setData, hseg, data_setData (by omega), if_pos rfl, capacity_setData,
        length_append, length_replicate]
      calc p.size - (p.used + block) = p.size - p.used - block := Nat.sub_add_eq ..
        _ = a.capacity seg - (a.data seg).length - block := by rw [hrest]
        _ = a.capacity seg - ((a.data seg).length + block) := (Nat.sub_add_eq ..).symm
    · rw [memoryBytes_setData, h.grown]

theorem Follows.alloc (hinv : Inv a live freed n free [])
    {value : Bytes} {r : Ref} (halloc : a.alloc value = .ok (r, a₁)) :
    ∃ p' live' n' free', planOne a₀ p value.length = some p' ∧ Inv a₁ live' freed n' free' [] ∧
      Follows a₀ a₁ free' p' := by
  by_cases hvalue : value = []
  · subst hvalue
    cases halloc
    exact ⟨p, live, n, free, rfl, hinv, h⟩
  · obtain ⟨bucket, block, a₂, seg, off, hclass, htake, rfl, href⟩ := alloc_ok hvalue halloc
    have hok := sizeClass_spec hclass
    obtain ⟨free', hpop, hinv₂, hwhole⟩ := takeBlock_inv hinv hok htake
    obtain ⟨p', hplan, h₂⟩ := h.take hinv (mt length_eq_zero_iff.1 hvalue) hclass hpop htake
    have hlt := lt_of_data (hinv₂.nonempty (b := ⟨seg, off, bucket, block⟩) (by simp))
    have hin := (hinv₂.inside ⟨seg, off, bucket, block⟩ (by simp)).1
    have hfits := hok.fits
    simp only at hin
    exact ⟨p', _, _, free', hplan, hinv₂.fill hclass hwhole href, h₂.fill hlt (by omega)⟩

end

theorem Follows.allocAll : ∀ {values : List Bytes} {a : Arena} {live : List Handed} {n : Nat}
    {free : List Block} {p : Plan}, Follows a₀ a free p → Inv a live freed n free [] →
      a.allocAll values = .ok a₁ →
        ∃ p', (values.map length).foldlM (planOne a₀) p = some p' ∧
          a₁.memoryBytes = a₀.memoryBytes + p'.growth
  | [], a, _, _, _, p, h, _, hall => by
      cases hall
      exact ⟨p, rfl, h.grown⟩
  | value :: values, a, _, _, _, p, h, hinv, hall => by
      rw [Arena.allocAll] at hall
      split at hall
      · cases hall
      next r a₂ halloc =>
        obtain ⟨p₂, _, _, _, hplan, hinv₂, h₂⟩ := h.alloc hinv halloc
        obtain ⟨p', hplans, hgrown⟩ := h₂.allocAll hinv₂ hall
        refine ⟨p', ?_, hgrown⟩
        rw [map_cons, foldlM_cons, hplan]
        exact hplans

end Simulation

/-- After any run, and for any values: if they can all be allocated, one after the other, then
`growthFor` of their lengths is by how much the memory in use has grown. -/
theorem growthFor_eq {a a' : Arena} {live freed : List Handed} {n : Nat} (run : Run a live freed n)
    (values : List Bytes) (hall : a.allocAll values = .ok a') :
    ∃ growth, a.growthFor (values.map List.length) = some growth ∧
      a'.memoryBytes = a.memoryBytes + growth := by
  obtain ⟨free, h⟩ := run.keeps.1
  obtain ⟨p, hplan, hgrown⟩ := (Follows.start h).allocAll h hall
  exact ⟨p.growth, by rw [growthFor, hplan]; rfl, hgrown⟩

/-- A block that was released is taken again, and the next value opens a second segment. -/
theorem growthFor_eq_reused :
    let a := (oneBlock 1 [1, 2, 3, 4, 5, 6, 7, 8, 9] none).afterRelease ⟨9, 1⟩
    ∃ a', a.allocAll [List.replicate 10 7, List.replicate 200 5] = .ok a' ∧
      a.growthFor [10, 200] = some 920 ∧ a'.memoryBytes = a.memoryBytes + 920 := by
  intro a
  have first : Run (oneBlock 1 [1, 2, 3, 4, 5, 6, 7, 8, 9] none)
      [⟨⟨9, 1⟩, [1, 2, 3, 4, 5, 6, 7, 8, 9], 1⟩] [] 1 :=
    Run.init.alloc (by decide) (by decide +kernel)
  have hgrowth : a.growthFor [10, 200] = some 920 := by decide +kernel
  cases hall : a.allocAll [List.replicate 10 7, List.replicate 200 5] with
  | error e =>
    have hok : (a.allocAll [List.replicate 10 7, List.replicate 200 5]).isOk = true := by
      decide +kernel
    rw [hall] at hok
    cases hok
  | ok a' =>
    obtain ⟨growth, hplan, hgrown⟩ := growthFor_eq (first.free mem_cons_self) _ hall
    obtain rfl : 920 = growth := Option.some.inj (hgrowth.symm.trans hplan)
    exact ⟨a', rfl, hgrowth, hgrown⟩

end Arena
end SnugKV
