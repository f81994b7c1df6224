import SnugKV.Stream.Body

/-!
# Body proofs — the chunked log is a sorted list of entries

* `Chunk.Holds` — the entries a chunk stands for;
* `Body.Represents` — the chunks one after the other, in ascending order of ids;
* `append_is`, `trimFront_is`, `delete_is`, `sealAt_is` — the mutations are the list operations.

Each loop over packed bytes has one lemma that says what it computes from the entries standing at
its offset; the lemmas about whole bodies cut the list of chunks where the binary search cuts it.
-/

namespace SnugKV
namespace Stream

open Lib List Body StreamEntry Chunk

def Ascending (es : List StreamEntry) : Prop := es.Pairwise fun a b => a.id < b.id

/-- Visiting a list until `fn` asks to stop. -/
def visit {σ : Type} (fn : σ → StreamEntry → σ × Bool) : σ → List StreamEntry → σ × Bool
  | s, [] => (s, true)
  | s, e :: es => if (fn s e).2 then visit fn (fn s e).1 es else ((fn s e).1, false)

theorem visit_append {σ : Type} (fn : σ → StreamEntry → σ × Bool) (s : σ)
    (xs ys : List StreamEntry) :
    visit fn s (xs ++ ys) =
      if (visit fn s xs).2 then visit fn (visit fn s xs).1 ys else visit fn s xs := by
  induction xs generalizing s with
  | nil => simp [visit]
  | cons x xs ih =>
    rw [cons_append, visit, visit]
    by_cases hmore : (fn s x).2 = true
    · simp only [hmore, if_true, ih]
    · simp [hmore]

/-! ## Loops over packed entries -/

section Loops

variable {data : Bytes} {off : Nat}

/-- The entries standing at an offset, one behind the other. -/
structure Run (data : Bytes) (off : Nat) (es : List StreamEntry) : Prop where
  fits : ∀ e ∈ es, e.Fits
  bytes : HasAt data off (entriesBytes es)

variable {es : List StreamEntry} {e : StreamEntry}

theorem Run.head (h : Run data off (e :: es)) :
    streamEntryIDAt data off = some e.id ∧
      streamEntryEnd data off = some (off + (entryBytes e).length) ∧
      decodeStreamEntryAt data off = some (e, off + (entryBytes e).length) ∧
      Run data (off + (entryBytes e).length) es := by
  have hbytes := h.bytes
  rcases hasAt_append.1 hbytes with ⟨he, hes⟩
  have hfits := h.fits e (mem_cons_self ..)
  exact ⟨streamEntryIDAt_of_hasAt he, streamEntryEnd_of_hasAt hfits he,
    decodeStreamEntryAt_of_hasAt hfits he,
    fun x hx => h.fits x (mem_cons_of_mem _ hx), hes⟩

theorem Ascending.tail (h : Ascending (e :: es)) : Ascending es := (pairwise_cons.1 h).2

theorem Ascending.lt (h : Ascending (e :: es)) : ∀ x ∈ es, e.id < x.id := (pairwise_cons.1 h).1

variable {id : StreamID}

theorem getFrom_spec (h : Run data off es) (hasc : Ascending es) :
    getFrom data id es.length off = some (es.find? fun e => decide (e.id = id)) := by
  induction es generalizing off with
  | nil => rfl
  | cons e es ih =>
    obtain ⟨hid, hend, hdec, hrest⟩ := h.head
    simp only [length_cons, getFrom, hid, hend, hdec, some_bind, find?_cons]
    by_cases heq : e.id = id
    · simp [heq]
    · by_cases hlt : id < e.id
      · -- everything behind is greater still
        have hnone : es.find? (fun x => decide (x.id = id)) = none := by
          refine find?_eq_none.2 fun x hx => ?_
          have := lt_trans hlt (hasc.lt x hx)
          simp [ne_of_gt this]
        simp [hlt, heq, hnone]
      · simp only [StreamID.less_eq_decide, hlt, decide_false, Bool.false_eq_true, if_false, heq]
        exact ih hrest hasc.tail

/-- The search for an entry and the test for its id go the same way. -/
theorem hasFrom_of_getFrom {r : Option StreamEntry} {n : Nat}
    (h : getFrom data id n off = some r) : hasFrom data id n off = some r.isSome := by
  induction n generalizing off with
  | zero =>
    cases h
    rfl
  | succ n ih =>
    simp only [getFrom, Option.bind_eq_bind, Option.bind_eq_some_iff] at h
    obtain ⟨eid, hid, h⟩ := h
    simp only [hasFrom, hid, some_bind]
    split_ifs at h ⊢ with heq hlt
    · obtain ⟨e, -, h⟩ := Option.bind_eq_some_iff.1 h
      cases h
      rfl
    · cases h
      rfl
    · obtain ⟨next, hnext, h⟩ := Option.bind_eq_some_iff.1 h
      rw [hnext]
      exact ih h

theorem visitFrom_spec {σ : Type} {fn : σ → StreamEntry → σ × Bool} {pass : StreamID → Bool}
    (h : Run data off es) (s : σ) : visitFrom data pass fn es.length off s =
      some (visit fn s (es.filter fun e => pass e.id)) := by
  induction es generalizing off s with
  | nil => rfl
  | cons e es ih =>
    obtain ⟨hid, hend, hdec, hrest⟩ := h.head
    simp only [length_cons, visitFrom, hid, hend, hdec, some_bind, filter_cons]
    cases hpass : pass e.id with
    | false => simpa using ih hrest s
    | true =>
      simp only [Bool.not_true, Bool.false_eq_true, if_false, if_true, visit]
      rw [ih hrest, apply_ite some]

/-- The offsets of the entries, and what the readers find there. -/
theorem offsets_spec (h : Run data off es) : ∃ offs, offsets data es.length off = some offs ∧
      Forall₂ (fun o e => streamEntryIDAt data o = some e.id ∧
        ∃ next, decodeStreamEntryAt data o = some (e, next)) offs es := by
  induction es generalizing off with
  | nil => exact ⟨[], rfl, .nil⟩
  | cons e es ih =>
    obtain ⟨hid, hend, hdec, hrest⟩ := h.head
    rcases ih hrest with ⟨offs, hoffs, hall⟩
    refine ⟨off :: offs, ?_, .cons ⟨hid, _, hdec⟩ hall⟩
    simp [offsets, hend, hoffs]

theorem visitOffsets_spec {σ : Type} {fn : σ → StreamEntry → σ × Bool} {stop : StreamID}
    {offs : List Nat} (h : Forall₂ (fun o e => streamEntryIDAt data o = some e.id ∧
      ∃ next, decodeStreamEntryAt data o = some (e, next)) offs es) (s : σ) :
    visitOffsets data stop fn offs s =
      some (visit fn s (es.filter fun e => decide (e.id ≤ stop))) := by
  induction h generalizing s with
  | nil => rfl
  | @cons o e offs es hhead _ ih =>
    obtain ⟨hid, next, hdec⟩ := hhead
    simp only [visitOffsets, hid, hdec, some_bind, filter_cons]
    by_cases hlt : stop < e.id
    · simp only [StreamID.less_eq_decide, hlt, not_le.2 hlt, decide_true, if_true,
        decide_false, Bool.false_eq_true, if_false]
      exact ih s
    · simp only [StreamID.less_eq_decide, hlt, not_lt.1 hlt, decide_false, decide_true,
        Bool.false_eq_true, if_false, if_true, visit]
      rw [ih, apply_ite some]

/-- Entries below `minID`, or `limit` of them when there are that many. -/
def limited (limit : Int) (n : Nat) : Nat :=
  if 0 < limit ∧ limit ≤ n then limit.toNat else n

theorem countFrom_spec {minID : StreamID} {limit : Int} (h : Run data off es) (hasc : Ascending es)
    (count : Nat) (hcount : ¬ (0 < limit ∧ limit ≤ count)) :
    countFrom data minID limit es.length off count =
      some (limited limit (count + (es.filter fun e => decide (e.id < minID)).length)) := by
  induction es generalizing off count with
  | nil => simp [countFrom, limited, hcount]
  | cons e es ih =>
    obtain ⟨hid, hend, hdec, hrest⟩ := h.head
    simp only [length_cons, countFrom, hid, hend, some_bind, filter_cons, StreamID.less_eq_decide]
    by_cases hlt : e.id < minID
    · simp only [hlt, decide_true, Bool.not_true, Bool.false_eq_true, if_false, if_true,
        length_cons]
      by_cases hstop : 0 < limit ∧ limit ≤ (count : Int) + 1
      · have hle : 0 < limit ∧ limit ≤ ((count +
            ((es.filter fun e => decide (e.id < minID)).length + 1) : Nat) : Int) := by
          omega
        rw [if_pos hstop, limited, if_pos hle]
      · rw [if_neg hstop, ih hrest hasc.tail (count + 1) (by push_cast; exact hstop)]
        congr 2
        omega
    · -- the entries behind are not below `minID` either
      have hnone : es.filter (fun x => decide (x.id < minID)) = [] := by
        refine filter_eq_nil_iff.2 fun x hx => ?_
        have := lt_of_le_of_lt (not_lt.1 hlt) (hasc.lt x hx)
        simp [not_lt.2 (le_of_lt this)]
      simp [hlt, hnone, limited, hcount]

theorem throughFrom_spec (h : Run data off es) (hasc : Ascending es) (count : Nat) :
    throughFrom data id es.length off count =
      some (count + (es.filter fun e => decide (e.id ≤ id)).length) := by
  induction es generalizing off count with
  | nil => simp [throughFrom]
  | cons e es ih =>
    obtain ⟨hid, hend, hdec, hrest⟩ := h.head
    simp only [length_cons, throughFrom, hid, hend, some_bind, filter_cons, StreamID.less_eq_decide]
    by_cases hlt : id < e.id
    · have hnone : es.filter (fun x => decide (x.id ≤ id)) = [] := by
        refine filter_eq_nil_iff.2 fun x hx => ?_
        have := lt_trans hlt (hasc.lt x hx)
        simp [not_le.2 this]
      simp [hlt, not_le.2 hlt, hnone]
    · simp only [hlt, not_lt.1 hlt, decide_false, decide_true, Bool.false_eq_true, if_false,
        if_true, length_cons]
      rw [ih hrest hasc.tail]
      congr 1
      omega

theorem skipEntries_spec {n : Nat} (h : Run data off es) (hn : n ≤ es.length) (gone : StreamID) :
    ∃ last, Body.skipEntries data n off gone =
        some (off + (entriesBytes (es.take n)).length, last) ∧
      ((es.take n).getLast?.map StreamEntry.id).getD gone = last := by
  induction n generalizing es off gone with
  | zero => exact ⟨gone, by simp [Body.skipEntries, entriesBytes], by simp⟩
  | succ n ih =>
    cases es with
    | nil => simp at hn
    | cons e es =>
      obtain ⟨hid, hend, hdec, hrest⟩ := h.head
      rcases ih hrest (by simpa using hn) e.id with ⟨last, hlast, hgone⟩
      refine ⟨last, ?_, ?_⟩
      · simp only [Body.skipEntries, hid, hend, some_bind, hlast,
          take_succ_cons, entriesBytes, flatMap_cons, length_append,
          add_assoc]
      · rw [take_succ_cons, getLast?_cons, ← hgone]
        cases (es.take n).getLast? <;> simp

/-- What `rewriteChunk` has gathered: the kept entries and the ids of the dropped ones. -/
structure Kept.Sums (k : Body.Kept) (ks : List StreamEntry) (gone : List StreamID) : Prop where
  data : k.data = entriesBytes ks
  count : k.count = ks.length
  first : ∀ e, ks.head? = some e → k.first = e.id
  last : ∀ e, ks.getLast? = some e → k.last = e.id
  gone : k.gone = gone

theorem keepEntries_spec {drop : StreamID → Bool} (h : Run data off es) {k : Body.Kept}
    {ks : List StreamEntry} {gone : List StreamID} (hk : Kept.Sums k ks gone) :
    ∃ k', Body.keepEntries data drop es.length off k = some k' ∧
      Kept.Sums k' (ks ++ es.filter fun e => !drop e.id)
        (gone ++ (es.filter fun e => drop e.id).map StreamEntry.id) := by
  induction es generalizing off k ks gone with
  | nil => exact ⟨k, rfl, by simpa using hk⟩
  | cons e es ih =>
    obtain ⟨hid, hend, hdec, hrest⟩ := h.head
    have hbytes := h.bytes
    have hread : readAt data off (off + (entryBytes e).length - off) = entryBytes e := by
      rw [Nat.add_sub_cancel_left]
      exact (hasAt_append.1 hbytes).1.readAt
    simp only [length_cons, Body.keepEntries, hid, hend, some_bind, hread, filter_cons]
    cases hdrop : drop e.id with
    | true =>
      have hnext : Kept.Sums { k with gone := k.gone ++ [e.id] } ks (gone ++ [e.id]) :=
        ⟨hk.data, hk.count, hk.first, hk.last, by simp [hk.gone]⟩
      simpa using ih hrest hnext
    | false =>
      have hnext : Kept.Sums { k with
            first := if k.count = 0 then e.id else k.first
            last := e.id
            lastOff := k.data.length
            data := k.data ++ entryBytes e
            count := k.count + 1 } (ks ++ [e]) gone := by
        refine ⟨by simp [hk.data, entriesBytes], by simp [hk.count], ?_, by simp, hk.gone⟩
        intro x hx
        cases ks with
        | nil =>
          have hzero : k.count = 0 := hk.count
          simp only [nil_append, head?_cons, Option.some.injEq] at hx
          simp [hzero, hx]
        | cons y ys =>
          have hne : k.count ≠ 0 := by simp [hk.count]
          simp only [hne, if_false]
          exact hk.first x (by simpa using hx)
      simpa using ih hrest hnext

end Loops

/-! ## Chunks -/

/-- The entries of a chunk. -/
structure Chunk.Holds (c : Chunk) (es : List StreamEntry) : Prop where
  nonempty : es ≠ []
  fits : ∀ e ∈ es, e.Fits
  count : c.count = es.length
  bytes : ∃ dead, c.data = dead ++ entriesBytes es ∧ dead.length = c.head
  first : ∀ e, es.head? = some e → c.first = e.id
  last : ∀ e, es.getLast? = some e → c.last = e.id

namespace Chunk.Holds

variable {c : Chunk} {es : List StreamEntry}

section

variable (h : c.Holds es)

include h

theorem run : Run c.data c.head es := by
  rcases h.bytes with ⟨dead, hdata, hhead⟩
  exact ⟨h.fits, dead, [], by simp [hdata], hhead⟩

theorem live : c.data.drop c.head = entriesBytes es := by
  rcases h.bytes with ⟨dead, hdata, hhead⟩
  rw [hdata, ← hhead, drop_left]

theorem size : c.data.length - c.head = (entriesBytes es).length := by
  rw [← h.live, length_drop]

theorem congr {c' : Chunk} (hfirst : c'.first = c.first)
    (hlast : c'.last = c.last) (hcount : c'.count = c.count) (hhead : c'.head = c.head)
    (hdata : c'.data = c.data) : c'.Holds es where
  nonempty := h.nonempty
  fits := h.fits
  count := hcount.trans h.count
  bytes := by rw [hdata, hhead]; exact h.bytes
  first := by rw [hfirst]; exact h.first
  last := by rw [hlast]; exact h.last

theorem unspill : (Body.unspill c).Holds es := by
  unfold Body.unspill
  split_ifs
  · exact h.congr rfl rfl rfl rfl rfl
  · exact h

theorem sealed : (sealChunk c).Holds es := by
  unfold sealChunk
  split_ifs
  · exact h
  · exact h.congr rfl rfl rfl rfl rfl

end

variable {e : StreamEntry}

theorem push (h : c.Holds es) (env : Env) (he : e.Fits) :
    (Body.Chunk.push env c e).Holds (es ++ [e]) where
  nonempty := by simp
  fits := forall_mem_append.2 ⟨h.fits, forall_mem_singleton.2 he⟩
  count := by simp [Body.Chunk.push, h.count]
  bytes := by
    rcases h.bytes with ⟨dead, hdata, hhead⟩
    exact ⟨dead, by simp [Body.Chunk.push, hdata, entriesBytes], hhead⟩
  first := by
    intro x hx
    have hne : c.count ≠ 0 := by
      rw [h.count]
      exact fun hz => h.nonempty (eq_nil_of_length_eq_zero hz)
    simp only [Body.Chunk.push, hne, if_false]
    refine h.first x ?_
    rcases es with - | ⟨y, ys⟩
    · exact absurd rfl h.nonempty
    · simpa using hx
  last := by
    intro x hx
    simp only [getLast?_append, getLast?_singleton, Option.some_or, Option.some.injEq] at hx
    simp [Body.Chunk.push, hx]

theorem fresh (env : Env) (he : e.Fits) (size : Nat) :
    (Body.Chunk.push env ⟨e.id, ⟨0, 0⟩, 0, 0, 0, [], size, false⟩ e).Holds [e] where
  nonempty := by simp
  fits := by simpa using he
  count := rfl
  bytes := ⟨[], by simp [Body.Chunk.push, entriesBytes], rfl⟩
  first := by
    intro x hx
    simp only [head?_cons, Option.some.injEq] at hx
    simp [Body.Chunk.push, hx]
  last := by
    intro x hx
    simp only [getLast?_singleton, Option.some.injEq] at hx
    simp [Body.Chunk.push, hx]

section

variable (h : c.Holds es)

include h

theorem first_le (hasc : Ascending es) (he : e ∈ es) : c.first ≤ e.id := by
  rcases es with - | ⟨x, xs⟩
  · cases he
  · rw [h.first x rfl]
    rcases mem_cons.1 he with rfl | he
    · exact le_refl _
    · exact le_of_lt (hasc.lt e he)

theorem le_last (hasc : Ascending es) (he : e ∈ es) : e.id ≤ c.last := by
  rcases eq_nil_or_concat' es with rfl | ⟨init, x, rfl⟩
  · cases he
  · rw [h.last x (by simp)]
    rcases mem_append.1 he with hmem | hmem
    · exact le_of_lt ((pairwise_append.1 hasc).2.2 e hmem x (by simp))
    · rw [mem_singleton.1 hmem]

theorem exists_first : ∃ e ∈ es, e.id = c.first := by
  rcases es with - | ⟨x, xs⟩
  · exact absurd rfl h.nonempty
  · exact ⟨x, mem_cons_self .., (h.first x rfl).symm⟩

theorem exists_last : ∃ e ∈ es, e.id = c.last := by
  rcases eq_nil_or_concat' es with rfl | ⟨init, x, rfl⟩
  · exact absurd rfl h.nonempty
  · exact ⟨x, by simp, (h.last x (by simp)).symm⟩

end

end Chunk.Holds

/-! ## Bodies -/

/-- The chunks with their entries. -/
structure Body.Represents (b : Body) (cs : List (Chunk × List StreamEntry)) : Prop where
  chunks : b.chunks = cs.map Prod.fst
  holds : ∀ p ∈ cs, p.1.Holds p.2
  ascending : Ascending (cs.flatMap Prod.snd)
  length : b.length = (cs.flatMap Prod.snd).length
  dataBytes : b.dataBytes = (entriesBytes (cs.flatMap Prod.snd)).length

/-- The body holds the entries `es`. -/
def Body.Is (b : Body) (es : List StreamEntry) : Prop :=
  ∃ cs, b.Represents cs ∧ cs.flatMap Prod.snd = es

theorem Body.is_empty : ({} : Body).Is [] := ⟨[], ⟨rfl, by simp, Pairwise.nil, rfl, rfl⟩, rfl⟩

/-- The counters of ids are those of `b`. -/
structure Body.SameCounters (b' b : Body) : Prop where
  lastID : b'.lastID = b.lastID
  maxDeletedID : b'.maxDeletedID = b.maxDeletedID
  entriesAdded : b'.entriesAdded = b.entriesAdded

theorem Body.SameCounters.trans {b b' b'' : Body} (h : b''.SameCounters b')
    (h' : b'.SameCounters b) :
    b''.SameCounters b :=
  ⟨h.lastID.trans h'.lastID, h.maxDeletedID.trans h'.maxDeletedID,
    h.entriesAdded.trans h'.entriesAdded⟩

theorem entriesBytes_append (xs ys : List StreamEntry) :
    entriesBytes (xs ++ ys) = entriesBytes xs ++ entriesBytes ys := by
  simp [entriesBytes]

section Mutations

variable {b : Body} {cs : List (Chunk × List StreamEntry)}

/-- A change of the journal, the capacities or the counters of ids is none of the entries. -/
theorem Body.Represents.congr {b' : Body} (h : b.Represents cs) (hchunks : b'.chunks = b.chunks)
    (hlength : b'.length = b.length) (hbytes : b'.dataBytes = b.dataBytes) :
    b'.Represents cs :=
  ⟨hchunks.trans h.chunks, h.holds, h.ascending, hlength.trans h.length, hbytes.trans h.dataBytes⟩

variable {es : List StreamEntry} {p : Chunk × List StreamEntry}
  {xs ys : List (Chunk × List StreamEntry)} {c : Chunk} {e : StreamEntry}

def Chunk.bare (c : Chunk) : Chunk := { c with cap := 0 }

/-- The chunk without the place and the size of its buffer. -/
def Chunk.text (c : Chunk) : Chunk := { c with cap := 0, spilled := false }

theorem Chunk.Holds.of_text {c' : Chunk} (h : c.Holds es)
    (htext : c'.text = c.text) : c'.Holds es := by
  simp only [text, mk.injEq] at htext
  obtain ⟨hfirst, hlast, hcount, hhead, -, hdata, -, -⟩ := htext
  exact h.congr hfirst hlast hcount hhead hdata

theorem holds_of_text {chunks : List Chunk}
    (htext : chunks.map text = cs.map fun p => p.1.text)
    (h : ∀ p ∈ cs, p.1.Holds p.2) :
    ∃ cs' : List (Chunk × List StreamEntry), chunks = cs'.map Prod.fst ∧
      (∀ p ∈ cs', p.1.Holds p.2) ∧ cs'.map Prod.snd = cs.map Prod.snd := by
  induction cs generalizing chunks with
  | nil =>
    have hnil : chunks = [] := by simpa using htext
    exact ⟨[], hnil, by simp, rfl⟩
  | cons p cs ih =>
    cases chunks with
    | nil => simp at htext
    | cons c chunks =>
      simp only [map_cons, cons.injEq] at htext
      obtain ⟨cs', hchunks, hh, hsnd⟩ := ih htext.2 fun q hq => h q (mem_cons_of_mem _ hq)
      refine ⟨(c, p.2) :: cs', by simp [hchunks], ?_, by simp [hsnd]⟩
      exact forall_mem_cons.2 ⟨(h p (mem_cons_self ..)).of_text htext.1, hh⟩

/-- Neither capacities nor spilling show. -/
theorem Body.Is.of_text {b' : Body} (h : b.Is es)
    (htext : b'.chunks.map text = b.chunks.map text) (hlength : b'.length = b.length)
    (hbytes : b'.dataBytes = b.dataBytes) : b'.Is es := by
  rcases h with ⟨cs, hcs, rfl⟩
  rw [hcs.chunks, map_map] at htext
  obtain ⟨cs', hchunks, hh, hsnd⟩ := holds_of_text htext hcs.holds
  have hflat : cs'.flatMap Prod.snd = cs.flatMap Prod.snd := by
    rw [flatMap_def, flatMap_def, hsnd]
  refine ⟨cs', ⟨hchunks, hh, ?_, ?_, ?_⟩, hflat⟩
  · rw [hflat]
    exact hcs.ascending
  · rw [hflat, hlength]
    exact hcs.length
  · rw [hflat, hbytes]
    exact hcs.dataBytes

theorem Body.Is.of_bare {b' : Body} (h : b.Is es)
    (hbare : b'.chunks.map bare = b.chunks.map bare) (hlength : b'.length = b.length)
    (hbytes : b'.dataBytes = b.dataBytes) : b'.Is es := by
  refine h.of_text ?_ hlength hbytes
  have htext := congrArg (map text) hbare
  rwa [map_map, map_map] at htext

/-- The chunk, or the chunk written to a segment file. -/
def Chunk.ChilledTo (c c' : Chunk) : Prop :=
  c' = c ∨ c.spilled = false ∧ c.data ≠ [] ∧ c' = { c with spilled := true, cap := 0 }

theorem Chunk.ChilledTo.text {c' : Chunk} (h : c.ChilledTo c') : c'.text = c.text := by
  rcases h with rfl | ⟨-, -, rfl⟩
  · rfl
  · rfl

theorem map_text_of_chilled {cs cs' : List Chunk} (h : Forall₂ ChilledTo cs cs') :
    cs'.map text = cs.map text := by
  induction h with
  | nil => rfl
  | cons hc _ ih => rw [map_cons, map_cons, hc.text, ih]

theorem pickCold_chilled (target resident : Nat) (cs : List Chunk) :
    Forall₂ ChilledTo cs (pickCold target cs resident) := by
  have hsame : ∀ cs : List Chunk, Forall₂ ChilledTo cs cs := fun cs =>
    forall₂_same.2 fun _ _ => .inl rfl
  induction cs generalizing resident with
  | nil => exact .nil
  | cons c cs ih =>
    cases cs with
    | nil => exact hsame [c]
    | cons c' cs =>
      unfold pickCold
      split_ifs with hmore hskip
      · exact .cons (.inl rfl) (ih resident)
      · refine .cons (.inr ⟨?_, ?_, rfl⟩) (ih _)
        · cases hc : c.spilled with
          | false => rfl
          | true => simp [hc] at hskip
        · rintro hnil
          simp [hnil] at hskip
      · exact hsame _

theorem spillCold_chilled (env : Env) (b : Body) :
    Forall₂ ChilledTo b.chunks (b.spillCold env).chunks := by
  have hsame : Forall₂ ChilledTo b.chunks b.chunks :=
    forall₂_same.2 fun _ _ => .inl rfl
  unfold spillCold
  split
  · exact hsame
  · split_ifs
    · exact hsame
    · exact pickCold_chilled ..

theorem spillCold_same (env : Env) (b : Body) : (b.spillCold env).SameCounters b ∧
    (b.spillCold env).j = b.j ∧ (b.spillCold env).length = b.length ∧
      (b.spillCold env).dataBytes = b.dataBytes := by
  unfold spillCold
  split
  · exact ⟨⟨rfl, rfl, rfl⟩, rfl, rfl, rfl⟩
  · split_ifs <;> exact ⟨⟨rfl, rfl, rfl⟩, rfl, rfl, rfl⟩

theorem spillCold_is (env : Env) (h : b.Is es) : (b.spillCold env).Is es :=
  h.of_text (map_text_of_chilled (spillCold_chilled env b)) (spillCold_same env b).2.2.1
    (spillCold_same env b).2.2.2

theorem sealAt_same (b : Body) (i : Nat) : (b.sealAt i).SameCounters b ∧ (b.sealAt i).j = b.j ∧
    (b.sealAt i).length = b.length ∧ (b.sealAt i).dataBytes = b.dataBytes := by
  unfold sealAt
  split <;> exact ⟨⟨rfl, rfl, rfl⟩, rfl, rfl, rfl⟩

theorem sealAt_is (h : b.Is es) (i : Nat) : (b.sealAt i).Is es := by
  refine h.of_text ?_ (sealAt_same b i).2.2.1 (sealAt_same b i).2.2.2
  have hseal : ∀ c, (sealChunk c).text = c.text := by
    intro c
    unfold sealChunk
    split_ifs <;> rfl
  unfold sealAt
  cases hget : b.chunks[i]? with
  | none => rfl
  | some c =>
    obtain ⟨hi, rfl⟩ := List.getElem?_eq_some_iff.1 hget
    simp only [setChunk, List.map_set, hseal]
    rw [← getElem_map text (h := by simpa using hi), set_getElem_self]

/-- The chunk an append writes to, behind the chunks `init`: the newest one, or a fresh one behind
the newest one sealed. -/
inductive Opens (e : StreamEntry) : List Chunk → List Chunk → Chunk → Prop
  | first : Opens e [] [] ⟨e.id, ⟨0, 0⟩, 0, 0, 0, [], streamEntrySize e.fields, false⟩
  | next (init : List Chunk) (c : Chunk) : Opens e (init ++ [c]) (init ++ [Body.sealChunk c])
      ⟨e.id, ⟨0, 0⟩, 0, 0, 0, [], streamEntrySize e.fields, false⟩
  | same (init : List Chunk) (c : Chunk) (hwarm : c.spilled = false) : Opens e (init ++ [c]) init c

/-- What an append does before the log may spill. -/
structure Appended (env : Env) (b : Body) (e : StreamEntry) (x : Body) (init : List Chunk)
    (c : Chunk) : Prop where
  opens : Opens e b.chunks init c
  run : b.append env e = some (x.spillCold env)
  chunks : x.chunks = init ++ [Body.Chunk.push env c e]
  length : x.length = b.length + 1
  dataBytes : x.dataBytes = b.dataBytes + streamEntrySize e.fields
  counters : x.SameCounters b
  j : x.j = (b.noteAppend e).j

theorem append_eq (env : Env) (b : Body) (e : StreamEntry) :
    ∃ x init c, Appended env b e x init c := by
  obtain ⟨init, c, b₁, hopens, hopen, hchunks, hsame⟩ : ∃ init c b₁, Opens e b.chunks init c ∧
      (b.noteAppend e).openChunk e.id (streamEntrySize e.fields) = b₁ ∧ b₁.chunks = init ++ [c] ∧
        b₁.SameCounters b ∧ b₁.j = (b.noteAppend e).j ∧ b₁.length = b.length ∧
          b₁.dataBytes = b.dataBytes := by
    have hnote : (b.noteAppend e).chunks = b.chunks := rfl
    unfold openChunk
    rw [hnote]
    rcases eq_nil_or_concat' b.chunks with hnil | ⟨init, c, hsplit⟩
    · rw [hnil]
      exact ⟨[], _, _, .first, rfl, by simp, ⟨rfl, rfl, rfl⟩, rfl, rfl, rfl⟩
    · rw [hsplit, getLast?_concat]
      by_cases hfull : (c.spilled || decide (streamChunkTarget ≤ c.data.length)) = true
      · -- the newest chunk is sealed and a fresh one opened
        obtain ⟨hcounters, hj, hlength, hbytes⟩ := sealAt_same (b.noteAppend e) init.length
        simp only
        rw [if_pos (by simpa using hfull), length_append, length_singleton, Nat.add_sub_cancel]
        refine ⟨_, _, _, .next init c, rfl, ?_, ⟨hcounters.lastID, hcounters.maxDeletedID,
          hcounters.entriesAdded⟩, hj, hlength, hbytes⟩
        simp [sealAt, setChunk, hnote, hsplit]
      · have hwarm : c.spilled = false := by
          cases hc : c.spilled with
          | false => rfl
          | true => simp [hc] at hfull
        simp only
        rw [if_neg (by simpa using hfull)]
        exact ⟨_, _, _, .same init c hwarm, rfl, hnote.trans hsplit, ⟨rfl, rfl, rfl⟩, rfl, rfl, rfl⟩
  obtain ⟨hcounters, hj, hlength, hbytes⟩ := hsame
  have hlast : b₁.chunks.getLast? = some c := by simp [hchunks]
  refine ⟨{ b₁.setChunk (b₁.chunks.length - 1) (push env c e) with
      dataCap := b₁.dataCap + ((push env c e).cap - c.cap)
      length := b₁.length + 1
      dataBytes := b₁.dataBytes + streamEntrySize e.fields }, init, c, hopens, ?_, ?_, ?_, ?_,
    ⟨hcounters.lastID, hcounters.maxDeletedID, hcounters.entriesAdded⟩, hj⟩
  · simp only [append, hopen, hlast]
  · simp [setChunk, hchunks]
  · rw [hlength]
  · rw [hbytes]

theorem append_is (env : Env) (h : b.Is es) (he : e.Fits)
    (hgt : ∀ x ∈ es, x.id < e.id) : ∃ b', b.append env e = some b' ∧ b'.Is (es ++ [e]) := by
  obtain ⟨cs, hcs, rfl⟩ := h
  obtain ⟨x, init, c, happ⟩ := append_eq env b e
  refine ⟨_, happ.run, spillCold_is env ?_⟩
  -- the entries of the chunks before, and of the chunk written to
  obtain ⟨cs₁, last, hinit, hholds, hpush, hflat⟩ : ∃ (cs₁ : List (Chunk × List StreamEntry))
      (last : List StreamEntry), init = cs₁.map Prod.fst ∧ (∀ p ∈ cs₁, p.1.Holds p.2) ∧
        (Body.Chunk.push env c e).Holds (last ++ [e]) ∧
          cs.flatMap Prod.snd = cs₁.flatMap Prod.snd ++ last := by
    have hopens := happ.opens
    have hholds := hcs.holds
    rw [hcs.chunks] at hopens
    rcases eq_nil_or_concat' cs with rfl | ⟨cs₀, p, rfl⟩
    · generalize hchunks : ([] : List (Chunk × List StreamEntry)).map Prod.fst = chunks at hopens
      cases hopens with
      | first => exact ⟨[], [], rfl, by simp, .fresh env he _, rfl⟩
      | next init c => simp at hchunks
      | same init c hwarm => simp at hchunks
    · have hinit : ∀ q ∈ cs₀, q.1.Holds q.2 := fun q hq => hholds q (by simp [hq])
      have hp : p.1.Holds p.2 := hholds p (by simp)
      generalize hchunks : (cs₀ ++ [p]).map Prod.fst = chunks at hopens
      rw [map_append, map_singleton] at hchunks
      cases hopens with
      | first => simp at hchunks
      | next init c =>
        obtain ⟨rfl, rfl⟩ := append_singleton_inj.1 hchunks
        refine ⟨cs₀ ++ [(Body.sealChunk p.1, p.2)], [], by simp, ?_, .fresh env he _, by simp⟩
        exact forall_mem_append.2 ⟨hinit, by simpa using hp.sealed⟩
      | same init c hwarm =>
        obtain ⟨rfl, rfl⟩ := append_singleton_inj.1 hchunks
        exact ⟨cs₀, p.2, rfl, hinit, hp.push env he, by simp⟩
  have hflat' : (cs₁ ++ [(Body.Chunk.push env c e, last ++ [e])]).flatMap Prod.snd =
      cs.flatMap Prod.snd ++ [e] := by simp [hflat]
  refine ⟨cs₁ ++ [(Body.Chunk.push env c e, last ++ [e])], ⟨?_, ?_, ?_, ?_, ?_⟩, hflat'⟩
  · simp [happ.chunks, hinit]
  · exact forall_mem_append.2 ⟨hholds, by simpa using hpush⟩
  · rw [hflat']
    exact pairwise_append.2 ⟨hcs.ascending, by simp, by simpa using hgt⟩
  · rw [hflat', happ.length, hcs.length, length_append]
    rfl
  · rw [hflat', happ.dataBytes, hcs.dataBytes, entriesBytes_append, length_append,
      streamEntrySize_eq he]
    simp [entriesBytes]

theorem trimChunk_spec (h : c.Holds es) {t : Body.Trim} (hn : t.n < es.length) :
    ∃ c' t', Body.trimChunk c t = some (c', t') ∧ c'.Holds (es.drop t.n) ∧ t'.n = 0 ∧
      t'.removed = t.removed + t.n ∧ t'.length = t.length - t.n ∧
      t'.dataBytes = t.dataBytes - (entriesBytes (es.take t.n)).length ∧
      t'.lastGone = ((es.take t.n).getLast?.map StreamEntry.id).getD t.lastGone := by
  have hu := h.unspill
  have hsplit : es = es.take t.n ++ es.drop t.n := (take_append_drop ..).symm
  obtain ⟨gone, hskip, hgone⟩ := skipEntries_spec hu.run (le_of_lt hn) t.lastGone
  obtain ⟨e, rest, hdrop⟩ : ∃ e rest, es.drop t.n = e :: rest :=
    exists_cons_of_ne_nil (by simpa using hn)
  -- the entry the chunk now starts with
  have hrun : Run (Body.unspill c).data
      ((Body.unspill c).head + (entriesBytes (es.take t.n)).length) (e :: rest) := by
    refine ⟨fun x hx => h.fits x ?_, ?_⟩
    · rw [hsplit, hdrop]
      exact mem_append_right _ hx
    · have hbytes := hu.run.bytes
      rw [hsplit, entriesBytes_append] at hbytes
      rw [← hdrop]
      exact (hasAt_append.1 hbytes).2
  have hfits : ∀ x ∈ es.drop t.n, x.Fits := fun x hx => h.fits x (mem_of_mem_drop hx)
  have hlast : ∀ x, (es.drop t.n).getLast? = some x → c.last = x.id := by
    intro x hx
    refine h.last x ?_
    rw [getLast?_drop, if_neg (by omega)] at hx
    exact hx
  have hulast : (Body.unspill c).last = c.last := by
    unfold Body.unspill
    split_ifs <;> rfl
  have hhead : ∀ x, (es.drop t.n).head? = some x → e.id = x.id := by
    intro x hx
    simp only [hdrop, head?_cons, Option.some.injEq] at hx
    rw [hx]
  have hcount : (Body.unspill c).count - t.n = (es.drop t.n).length := by
    rw [hu.count, length_drop]
  rcases hu.bytes with ⟨dead, hdata, hdead⟩
  have hdata' : (Body.unspill c).data =
      (dead ++ entriesBytes (es.take t.n)) ++ entriesBytes (es.drop t.n) := by
    rw [hdata, append_assoc, ← entriesBytes_append, take_append_drop]
  have hoff : (dead ++ entriesBytes (es.take t.n)).length =
      (Body.unspill c).head + (entriesBytes (es.take t.n)).length := by
    rw [length_append, hdead]
  simp only [Body.trimChunk, hskip, hrun.head.1, some_bind]
  refine ⟨_, _, rfl, ?_, rfl, rfl, rfl, ?_, hgone.symm⟩
  · split_ifs
    · refine ⟨by simp [hdrop], hfits, hcount, ⟨[], ?_, rfl⟩, hhead, ?_⟩
      · simp only [nil_append]
        rw [← hoff, hdata', drop_left]
      · exact fun x hx => hulast.trans (hlast x hx)
    · exact ⟨by simp [hdrop], hfits, hcount, ⟨_, hdata', hoff⟩, hhead,
        fun x hx => hulast.trans (hlast x hx)⟩
  · simp

theorem getLast?_take_append {xs ys : List StreamEntry} {n : Nat} (hn : xs.length ≤ n)
    (gone : StreamID) :
    (((xs ++ ys).take n).getLast?.map StreamEntry.id).getD gone =
      ((ys.take (n - xs.length)).getLast?.map StreamEntry.id).getD
        ((xs.getLast?.map StreamEntry.id).getD gone) := by
  rw [take_append, take_of_length_le hn, getLast?_append]
  cases (ys.take (n - xs.length)).getLast? <;> simp

theorem trimChunks_spec (hholds : ∀ p ∈ cs, p.1.Holds p.2) (t : Body.Trim) :
    ∃ (cs' : List (Chunk × List StreamEntry)) (t' : Body.Trim),
      Body.trimChunks (cs.map Prod.fst) t = some (cs'.map Prod.fst, t') ∧
      (∀ p ∈ cs', p.1.Holds p.2) ∧
      cs'.flatMap Prod.snd = (cs.flatMap Prod.snd).drop t.n ∧
      t'.removed = t.removed + min t.n (cs.flatMap Prod.snd).length ∧
      t'.length = t.length - min t.n (cs.flatMap Prod.snd).length ∧
      t'.dataBytes = t.dataBytes - (entriesBytes ((cs.flatMap Prod.snd).take t.n)).length ∧
      t'.lastGone =
        (((cs.flatMap Prod.snd).take t.n).getLast?.map StreamEntry.id).getD t.lastGone := by
  induction cs generalizing t with
  | nil =>
    exact ⟨[], t, rfl, by simp, by simp, by simp, by simp, by simp [entriesBytes], by simp⟩
  | cons p cs ih =>
    have hp := hholds p (mem_cons_self ..)
    have htail : ∀ q ∈ cs, q.1.Holds q.2 := fun q hq => hholds q (mem_cons_of_mem _ hq)
    rw [flatMap_cons]
    by_cases hzero : t.n = 0
    · refine ⟨p :: cs, t, ?_, hholds, by simp [hzero], by simp [hzero], by simp [hzero],
        by simp [hzero, entriesBytes], by simp [hzero]⟩
      simp [Body.trimChunks, hzero]
    · by_cases hall : p.1.count ≤ t.n
      · -- the whole chunk goes
        rw [hp.count] at hall
        obtain ⟨cs', t', htrim, hh, hflat, hrem, hlen, hbytes, hgone⟩ := ih htail
          { n := t.n - p.1.count
            removed := t.removed + p.1.count
            lastGone := p.1.last
            length := t.length - p.1.count
            dataBytes := t.dataBytes - (p.1.data.length - p.1.head)
            dataCap := t.dataCap - p.1.cap }
        simp only [hp.count, hp.size] at htrim hflat hrem hlen hbytes hgone
        refine ⟨cs', t', ?_, hh, ?_, ?_, ?_, ?_, ?_⟩
        · simpa only [map_cons, Body.trimChunks, hzero, if_false, hp.count, hall, if_true,
            hp.size] using htrim
        · rw [hflat, drop_append, drop_of_length_le hall, nil_append]
        · rw [hrem, length_append]
          omega
        · rw [hlen, length_append]
          omega
        · rw [hbytes, take_append, take_of_length_le hall, entriesBytes_append, length_append]
          omega
        · rw [hgone, getLast?_take_append hall]
          obtain ⟨x, hx⟩ : ∃ x, p.2.getLast? = some x :=
            Option.ne_none_iff_exists'.1 (by simpa using hp.nonempty)
          rw [hp.last x hx, hx]
          rfl
      · have hsome : t.n < p.2.length := by
          rw [← hp.count]
          omega
        obtain ⟨c', t', htrim, hh, hn, hrem, hlen, hbytes, hgone⟩ := trimChunk_spec hp hsome
        have htake : (p.2 ++ cs.flatMap Prod.snd).take t.n = p.2.take t.n :=
          take_append_of_le_length (le_of_lt hsome)
        have hmin : min t.n (p.2 ++ cs.flatMap Prod.snd).length = t.n := by
          rw [length_append]
          omega
        refine ⟨(c', p.2.drop t.n) :: cs, t', ?_, ?_, ?_, ?_, ?_, ?_, ?_⟩
        · simp [Body.trimChunks, hzero, hall, htrim]
        · exact forall_mem_cons.2 ⟨hh, htail⟩
        · rw [flatMap_cons, drop_append_of_le_length (le_of_lt hsome)]
        · rw [hrem, hmin]
        · rw [hlen, hmin]
        · rw [hbytes, htake]
        · rw [hgone, htake]

/-- The id of the last of the first `n` entries, as `TrimFront` notes it. -/
def lastOfFirst (es : List StreamEntry) (n : Nat) : StreamID :=
  ((es.take n).getLast?.map StreamEntry.id).getD ⟨0, 0⟩

/-- `TrimFront` drops from the front, and notes how far it went when anything did go. -/
theorem trimFront_spec (h : b.Is es) (n : Int) :
    ∃ b', b.trimFront n = some (b', min n.toNat es.length) ∧ b'.Is (es.drop n.toNat) ∧
      b'.SameCounters b ∧
      b'.j = if 0 < n ∧ 0 < es.length then
          (b.beforeDestructive.noteThrough (lastOfFirst es n.toNat)).j
        else b.j := by
  rcases h with ⟨cs, hcs, rfl⟩
  obtain ⟨base, hbase, hchunks, hlength, hbytes, hcounters, hj⟩ :
      ∃ base, (if 0 < n ∧ 0 < b.length then b.beforeDestructive else b) = base ∧
        base.chunks = b.chunks ∧ base.length = b.length ∧ base.dataBytes = b.dataBytes ∧
        base.SameCounters b ∧
        base.j = if 0 < n ∧ 0 < b.length then b.beforeDestructive.j else b.j := by
    refine ⟨_, rfl, ?_⟩
    split_ifs <;> exact ⟨rfl, rfl, rfl, ⟨rfl, rfl, rfl⟩, rfl⟩
  obtain ⟨cs', t, htrim, hh, hflat, hrem, hlen, hdata, hgone⟩ :=
    trimChunks_spec hcs.holds ⟨n.toNat, 0, ⟨0, 0⟩, b.length, b.dataBytes, base.dataCap⟩
  simp only [zero_add] at hflat hrem hlen hdata
  obtain ⟨h₁, h₂, h₃, h₄, h₅⟩ : (base.trimmed (cs'.map Prod.fst) t).chunks = cs'.map Prod.fst ∧
      (base.trimmed (cs'.map Prod.fst) t).length = t.length ∧
      (base.trimmed (cs'.map Prod.fst) t).dataBytes = t.dataBytes ∧
      (base.trimmed (cs'.map Prod.fst) t).SameCounters base ∧
      (base.trimmed (cs'.map Prod.fst) t).j =
        if 0 < t.removed then (base.noteThrough t.lastGone).j else base.j := by
    unfold Body.trimmed
    split_ifs <;> exact ⟨rfl, rfl, rfl, ⟨rfl, rfl, rfl⟩, rfl⟩
  refine ⟨base.trimmed (cs'.map Prod.fst) t, ?_, ⟨cs', ⟨h₁, hh, ?_, ?_, ?_⟩, hflat⟩, ?_, ?_⟩
  · simp only [Body.trimFront, hbase, hchunks, hlength, hbytes, hcs.chunks, htrim,
      some_bind, hrem]
  · rw [hflat]
    exact hcs.ascending.sublist (drop_sublist ..)
  · rw [h₂, hlen, hflat, length_drop, hcs.length]
    omega
  · rw [h₃, hdata, hflat, hcs.dataBytes]
    nth_rewrite 1 [← take_append_drop n.toNat (cs.flatMap Prod.snd)]
    rw [entriesBytes_append, length_append, Nat.add_sub_cancel_left]
  · exact h₄.trans hcounters
  · -- something goes exactly when the journal was told before
    rw [hcs.length] at hj
    rw [h₅]
    have hiff : 0 < t.removed ↔ 0 < n ∧ 0 < (cs.flatMap Prod.snd).length := by
      omega
    by_cases hsome : 0 < n ∧ 0 < (cs.flatMap Prod.snd).length
    · rw [if_pos hsome] at hj ⊢
      rw [if_pos (hiff.2 hsome), hgone, Body.noteThrough, hj]
      rfl
    · rw [if_neg hsome] at hj ⊢
      rw [if_neg fun hpos => hsome (hiff.1 hpos), hj]

theorem trimFront_is (h : b.Is es) (n : Int) :
    ∃ b', b.trimFront n = some (b', min n.toNat es.length) ∧ b'.Is (es.drop n.toNat) := by
  obtain ⟨b', htrim, his, -, -⟩ := trimFront_spec h n
  exact ⟨b', htrim, his⟩

/-! ## The order of the chunks -/

section

variable (h : b.Represents cs)

include h

theorem Body.Represents.chunk_ascending (hp : p ∈ cs) : Ascending p.2 :=
  (pairwise_flatMap.1 h.ascending).1 p hp

theorem Body.Represents.chunk_order : cs.Pairwise fun p q => p.1.last < q.1.first := by
  refine (pairwise_flatMap.1 h.ascending).2.imp_of_mem ?_
  intro p q hp hq hlt
  obtain ⟨x, hx, hxid⟩ := (h.holds p hp).exists_last
  obtain ⟨y, hy, hyid⟩ := (h.holds q hq).exists_first
  rw [← hxid, ← hyid]
  exact hlt x hx y hy

theorem Body.Represents.bounds (hp : p ∈ cs) {e : StreamEntry}
    (he : e ∈ p.2) : p.1.first ≤ e.id ∧ e.id ≤ p.1.last :=
  ⟨(h.holds p hp).first_le (h.chunk_ascending hp) he,
    (h.holds p hp).le_last (h.chunk_ascending hp) he⟩

theorem Body.Represents.first_le_last (hp : p ∈ cs) : p.1.first ≤ p.1.last := by
  obtain ⟨x, hx, hxid⟩ := (h.holds p hp).exists_first
  rw [← hxid]
  exact (h.bounds hp hx).2

end

theorem searchList_map {α β : Type} (l : List α) (f : α → β) (p : β → Bool) :
    searchList (l.map f) p = searchList l fun a => p (f a) := by
  unfold searchList
  rw [length_map]
  congr 1
  funext i
  rw [getElem?_map]
  cases l[i]? <;> rfl

/-- `firstChunkAtOrAfter` cuts the chunks where the last ids reach `id`. -/
theorem Body.Represents.split_at_or_after (h : b.Represents cs) (id : StreamID) :
    ∃ xs ys, cs = xs ++ ys ∧ (∀ p ∈ xs, p.1.last < id) ∧ (∀ p ∈ ys, id ≤ p.1.last) ∧
      b.firstChunkAtOrAfter id true = xs.length := by
  have hmono : cs.Pairwise fun p q =>
      (!p.1.last.less id) = true → (!q.1.last.less id) = true := by
    refine h.chunk_order.imp_of_mem ?_
    intro p q hp hq hlt hpass
    have hle := h.first_le_last hq
    simp only [StreamID.less_eq_decide, Bool.not_eq_true', decide_eq_false_iff_not,
      not_lt] at hpass ⊢
    exact le_trans hpass (le_trans (le_of_lt hlt) hle)
  rcases exists_split hmono with ⟨xs, ys, rfl, hx, hy⟩
  refine ⟨xs, ys, rfl, ?_, ?_, ?_⟩
  · intro p hp
    simpa using hx p hp
  · intro p hp
    simpa using hy p hp
  · simp only [firstChunkAtOrAfter, if_true, h.chunks, searchList_map]
    exact searchList_append hx hy

/-- The chunk of an entry is found by the search. -/
theorem Body.Represents.chunkFor_of_mem (h : b.Represents (xs ++ p :: ys))
    (he : e ∈ p.2) : b.chunkFor e.id = some (xs.length, p.1) := by
  have hp : p ∈ xs ++ p :: ys := by simp
  obtain ⟨hfirst, hlast⟩ := h.bounds hp he
  have horder := pairwise_append.1 h.chunk_order
  have hsearch : b.firstChunkAtOrAfter e.id true = xs.length := by
    simp only [firstChunkAtOrAfter, if_true, h.chunks, searchList_map]
    refine searchList_append ?_ ?_
    · intro q hq
      have hlt : q.1.last < e.id := lt_of_lt_of_le (horder.2.2 q hq p (by simp)) hfirst
      simpa using hlt
    · intro q hq
      rcases mem_cons.1 hq with rfl | hq
      · simpa using hlast
      · have hlt := (pairwise_cons.1 horder.2.1).1 q hq
        have hle := h.first_le_last (p := q) (by simp [hq])
        simpa using le_trans hlast (le_trans (le_of_lt hlt) hle)
  have hget : b.chunks[xs.length]? = some p.1 := by simp [h.chunks]
  simp [chunkFor, hsearch, hget, not_lt.2 hfirst]

/-! ## Deleting -/

/-- A chunk in the middle of a body is replaced by chunks with some of its entries. -/
theorem Body.Represents.replace {b' : Body} {mid : List (Chunk × List StreamEntry)}
    (h : b.Represents (xs ++ p :: ys)) (hchunks : b'.chunks = (xs ++ mid ++ ys).map Prod.fst)
    (hmid : ∀ q ∈ mid, q.1.Holds q.2) (hsub : (mid.flatMap Prod.snd).Sublist p.2)
    (hlength : b'.length = b.length - (p.2.length - (mid.flatMap Prod.snd).length))
    (hbytes : b'.dataBytes = b.dataBytes - (entriesBytes p.2).length +
      (entriesBytes (mid.flatMap Prod.snd)).length) : b'.Represents (xs ++ mid ++ ys) := by
  have hflat : (xs ++ p :: ys).flatMap Prod.snd =
      xs.flatMap Prod.snd ++ (p.2 ++ ys.flatMap Prod.snd) := by simp
  have hflat' : (xs ++ mid ++ ys).flatMap Prod.snd =
      xs.flatMap Prod.snd ++ (mid.flatMap Prod.snd ++ ys.flatMap Prod.snd) := by simp
  have hle := hsub.length_le
  obtain ⟨hxs, hys⟩ := forall_mem_append.1 h.holds
  refine ⟨hchunks, ?_, ?_, ?_, ?_⟩
  · exact forall_mem_append.2 ⟨forall_mem_append.2 ⟨hxs, hmid⟩, (forall_mem_cons.1 hys).2⟩
  · refine h.ascending.sublist ?_
    rw [hflat, hflat']
    exact (Sublist.refl _).append (hsub.append (Sublist.refl _))
  · rw [hlength, h.length, hflat, hflat']
    simp only [length_append]
    omega
  · rw [hbytes, h.dataBytes, hflat, hflat']
    simp only [entriesBytes_append, length_append]
    omega

theorem replaceChunk_spec (h : b.Represents (xs ++ (c, es) :: ys))
    {drop : StreamID → Bool} {k : Body.Kept} (hk : Kept.Sums k (es.filter fun e => !drop e.id)
      ((es.filter fun e => drop e.id).map StreamEntry.id)) :
    ∃ mid : List (Chunk × List StreamEntry),
      (b.replaceChunk xs.length c k).1.Represents (xs ++ mid ++ ys) ∧
      (b.replaceChunk xs.length c k).2 = (es.filter fun e => drop e.id).length ∧
      mid.flatMap Prod.snd = es.filter fun e => !drop e.id := by
  have hc : c.Holds es := h.holds (c, es) (by simp)
  have hgone : k.gone.length = (es.filter fun e => drop e.id).length := by
    rw [hk.gone, length_map]
  have hcount := length_eq_length_filter_add (l := es) fun e => drop e.id
  have hchunks : b.chunks = xs.map Prod.fst ++ c :: ys.map Prod.fst := by simp [h.chunks]
  unfold Body.replaceChunk
  by_cases hnone : k.gone.length = 0
  · -- nothing to remove
    have hempty : (es.filter fun e => drop e.id) = [] := eq_nil_of_length_eq_zero (hgone ▸ hnone)
    have hall : (es.filter fun e => !drop e.id) = es := by
      refine filter_eq_self.2 fun e he => ?_
      simpa using filter_eq_nil_iff.1 hempty e he
    simp only [hnone, if_true]
    exact ⟨[(c, es)], by simpa using h, by simp [hempty], by simp [hall]⟩
  · simp only [hnone, if_false]
    by_cases hempty : k.count = 0
    · -- the chunk goes
      have hall : (es.filter fun e => !drop e.id) = [] :=
        eq_nil_of_length_eq_zero (hk.count ▸ hempty)
      simp only [hempty, if_true]
      refine ⟨[], @Body.Represents.replace b (c, es) xs ys _ [] h ?_ (by simp) (by simp) ?_ ?_,
        hgone, by simp [hall]⟩
      · simp only [Body.dropChunk, hchunks]
        rw [eraseIdx_append_of_length_le (by simp)]
        simp
      · simp [Body.dropChunk, hc.count]
      · simp [Body.dropChunk, hc.size, entriesBytes]
    · have hne : (es.filter fun e => !drop e.id) ≠ [] := by
        intro hnil
        rw [hk.count, hnil] at hempty
        exact hempty rfl
      simp only [hempty, if_false]
      refine ⟨[(⟨k.first, k.last, k.count, 0, k.lastOff, k.data, c.data.length - c.head, false⟩,
          es.filter fun e => !drop e.id)],
        @Body.Represents.replace b (c, es) xs ys _ _ h ?_ ?_ ?_ ?_ ?_, hgone, by simp⟩
      · simp only [Body.setChunk, hchunks]
        simp
      · exact forall_mem_singleton.2 ⟨hne, fun e he => hc.fits e (mem_of_mem_filter he), hk.count,
          ⟨[], hk.data, rfl⟩, hk.first, hk.last⟩
      · simp
      · simp only [flatMap_cons, flatMap_nil, append_nil]
        omega
      · simp only [flatMap_cons, flatMap_nil, append_nil, hc.size, hk.data]

/-- The body after a deletion: only entries went, and the journal was told which. -/
structure Body.Noted (b' b : Body) (gone : List StreamID) : Prop where
  counters : b'.SameCounters b
  j : b'.j = (b.noteDeleted gone).j

theorem Body.Noted.nil (b : Body) : b.Noted b [] :=
  ⟨⟨rfl, rfl, rfl⟩, by cases hj : b.j <;> simp [noteDeleted, hj]⟩

theorem Body.Noted.append {b' b'' : Body} {gone gone' : List StreamID} (h : b'.Noted b gone)
    (h' : b''.Noted b' gone') : b''.Noted b (gone ++ gone') := by
  refine ⟨h'.counters.trans h.counters, ?_⟩
  rw [h'.j, noteDeleted, h.j]
  simp only [noteDeleted, Option.map_map, Function.comp_def, append_assoc]

theorem replaceChunk_noted (b : Body) (ci : Nat) (c : Chunk) (k : Kept) :
    (b.replaceChunk ci c k).1.SameCounters b ∧ (b.replaceChunk ci c k).1.j = b.j := by
  unfold replaceChunk
  split_ifs <;> exact ⟨⟨rfl, rfl, rfl⟩, rfl⟩

/-- `rewriteChunk` filters the entries of its chunk and keeps the others. -/
theorem rewriteChunk_spec (h : b.Represents (xs ++ p :: ys)) (drop : StreamID → Bool) :
    ∃ (b' : Body) (mid : List (Chunk × List StreamEntry)),
      b.rewriteChunk xs.length drop = some (b', (p.2.filter fun e => drop e.id).length) ∧
      b'.Represents (xs ++ mid ++ ys) ∧
      mid.flatMap Prod.snd = (p.2.filter fun e => !drop e.id) ∧
      b'.Noted b ((p.2.filter fun e => drop e.id).map StreamEntry.id) := by
  have hp := (h.holds p (by simp)).unspill
  obtain ⟨k, hkeep, hsums⟩ := @keepEntries_spec (Body.unspill p.1).data (Body.unspill p.1).head
    p.2 drop hp.run {} [] [] ⟨rfl, rfl, by simp, by simp, rfl⟩
  simp only [nil_append] at hsums
  have hchunks : b.chunks = xs.map Prod.fst ++ p.1 :: ys.map Prod.fst := by simp [h.chunks]
  have hget : b.chunks[xs.length]? = some p.1 := by simp [hchunks]
  -- back in memory, with the deletions noted
  have hbase : ((b.unspillAt xs.length p.1).noteDeleted k.gone).Represents
      (xs ++ [(Body.unspill p.1, p.2)] ++ ys) := by
    refine @Body.Represents.replace b p xs ys _ _ h ?_ (by simpa using hp) (by simp) ?_ ?_
    · simp only [Body.noteDeleted, Body.unspillAt, Body.setChunk, hchunks]
      simp
    · simp [Body.noteDeleted, Body.unspillAt, Body.setChunk]
    · have hle : (entriesBytes p.2).length ≤ b.dataBytes := by
        rw [h.dataBytes]
        simp only [flatMap_append, flatMap_cons, entriesBytes_append, length_append]
        omega
      simp only [Body.noteDeleted, Body.unspillAt, Body.setChunk, flatMap_cons,
        flatMap_nil, append_nil]
      omega
  rw [append_assoc, singleton_append] at hbase
  obtain ⟨mid, hmid, hnum, hflat⟩ := replaceChunk_spec hbase hsums
  refine ⟨_, mid, ?_, hmid, hflat, ?_⟩
  · rw [Body.rewriteChunk, hget]
    simp only [some_bind, hp.count, hkeep, ← hnum]
  · obtain ⟨hcounters, hj⟩ := replaceChunk_noted
      ((b.unspillAt xs.length p.1).noteDeleted k.gone) xs.length (Body.unspill p.1) k
    rw [← hsums.gone]
    exact ⟨⟨hcounters.lastID, hcounters.maxDeletedID, hcounters.entriesAdded⟩, hj⟩

/-- The chunks of `xs`, from the last to the first, lose the ids of their sets. -/
theorem rewriteChunks_spec {ids : List StreamID} {drops : Nat → List StreamID}
    (h : b.Represents (xs ++ ys))
    (hdrops : ∀ i p, xs[i]? = some p → ∀ e ∈ p.2, e.id ∈ drops i ↔ e.id ∈ ids) :
    ∃ (b' : Body) (xs' : List (Chunk × List StreamEntry)),
      b.rewriteChunks (((List.range xs.length).reverse.map fun ci => (ci, drops ci)).filter
        fun r => !r.2.isEmpty) =
        some (b', ((xs.flatMap Prod.snd).filter fun e => decide (e.id ∈ ids)).length) ∧
      b'.Represents (xs' ++ ys) ∧
      xs'.flatMap Prod.snd = ((xs.flatMap Prod.snd).filter fun e => !decide (e.id ∈ ids)) ∧
      ∃ gone, b'.Noted b gone ∧ ∀ id, id ∈ gone ↔
        id ∈ ((xs.flatMap Prod.snd).filter fun e => decide (e.id ∈ ids)).map StreamEntry.id := by
  induction xs using List.reverseRecOn generalizing b ys with
  | nil => exact ⟨b, [], rfl, h, rfl, [], .nil b, by simp⟩
  | append_singleton xs p ih =>
    have hlast : (xs ++ [p])[xs.length]? = some p := by simp
    have hinit : ∀ i q, xs[i]? = some q → ∀ e ∈ q.2, e.id ∈ drops i ↔ e.id ∈ ids := by
      intro i q hq
      refine hdrops i q ?_
      rw [List.getElem?_append_left (List.getElem?_eq_some_iff.1 hq).1]
      exact hq
    have hset : ∀ f : Bool → Bool, (p.2.filter fun e => f (decide (e.id ∈ drops xs.length))) =
        p.2.filter fun e => f (decide (e.id ∈ ids)) := by
      intro f
      refine filter_congr fun e he => ?_
      rw [decide_eq_decide.2 (hdrops _ _ hlast e he)]
    rw [append_assoc, singleton_append] at h
    rw [length_append, length_singleton, range_succ, reverse_concat, map_cons,
      filter_cons, flatMap_append, filter_append, length_append,
      flatMap_cons, flatMap_nil, append_nil]
    by_cases hempty : (drops xs.length).isEmpty = true
    · -- no id falls into this chunk
      have hnil : drops xs.length = [] := isEmpty_iff.1 hempty
      have hkeep := hset fun x => !x
      have hgone := hset fun x => x
      simp only [hnil, not_mem_nil, decide_false, Bool.not_false, filter_true,
        filter_false] at hkeep hgone
      obtain ⟨b', xs', hrun, hrep, hflat, gone, hnoted, hmem⟩ := ih h hinit
      refine ⟨b', xs' ++ [p], ?_, by simpa using hrep, ?_, gone, hnoted, ?_⟩
      · simp only [hempty, Bool.not_true, Bool.false_eq_true, if_false]
        rw [hrun, ← hgone]
        simp
      · rw [flatMap_append, hflat, filter_append, ← hkeep]
        simp
      · intro id
        rw [hmem, ← hgone, append_nil]
    · obtain ⟨b₁, mid, hone, hrep, hmid, hnoted₁⟩ :=
        rewriteChunk_spec h fun id => decide (id ∈ drops xs.length)
      rw [append_assoc] at hrep
      obtain ⟨b', xs', hrun, hrep', hflat, gone, hnoted, hmem⟩ := ih hrep hinit
      refine ⟨b', xs' ++ mid, ?_, by simpa using hrep', ?_, _, hnoted₁.append hnoted, ?_⟩
      · simp only [hempty, Bool.not_false, if_true, Body.rewriteChunks, hone,
          some_bind, hrun]
        rw [hset fun x => x, Nat.add_comm]
      · rw [flatMap_append, hflat, hmid, filter_append]
        rw [hset fun x => !x]
      · intro id
        rw [hset fun x => x, mem_append, hmem, map_append, mem_append, or_comm]

/-- `Delete` filters, and notes the ids that were there. -/
theorem delete_spec (h : b.Is es) (ids : List StreamID) : ∃ b', b.delete ids =
        some (b', (es.filter fun e => decide (e.id ∈ ids)).length) ∧
      b'.Is (es.filter fun e => !decide (e.id ∈ ids)) ∧
      ∃ gone, b'.Noted (if ids.isEmpty || b.length = 0 then b else b.beforeDestructive) gone ∧
        ∀ id, id ∈ gone ↔ id ∈ (es.filter fun e => decide (e.id ∈ ids)).map StreamEntry.id := by
  rcases h with ⟨cs, hcs, rfl⟩
  unfold Body.delete
  by_cases htrivial : (ids.isEmpty || decide (b.length = 0)) = true
  · rw [if_pos (by simpa using htrivial)]
    have hnone : ∀ e ∈ cs.flatMap Prod.snd, e.id ∉ ids := by
      intro e he hid
      rcases Bool.or_eq_true _ _ ▸ htrivial with hids | hlen
      · rw [isEmpty_iff.1 hids] at hid
        cases hid
      · have hnil : cs.flatMap Prod.snd = [] :=
          eq_nil_of_length_eq_zero (hcs.length ▸ of_decide_eq_true hlen)
        rw [hnil] at he
        cases he
    have hempty : ((cs.flatMap Prod.snd).filter fun e => decide (e.id ∈ ids)) = [] :=
      filter_eq_nil_iff.2 (by simpa using hnone)
    refine ⟨b, ?_, ⟨cs, hcs, ?_⟩, [], ?_, by simp [hempty]⟩
    · rw [hempty]
      rfl
    · exact (filter_eq_self.2 (by simpa using hnone)).symm
    · rw [if_pos (by simpa using htrivial)]
      exact .nil b
  · rw [if_neg (by simpa using htrivial)]
    have hbase : b.beforeDestructive.Represents (cs ++ []) := by
      rw [append_nil]
      exact hcs.congr rfl rfl rfl
    obtain ⟨b', xs', hrun, hrep, hflat, gone, hnoted, hmem⟩ :=
      @rewriteChunks_spec b.beforeDestructive cs [] ids
      (fun ci => ids.filter fun id =>
        (b.beforeDestructive.chunkFor id).any fun r => r.1 == ci) hbase (by
        intro i p hp e he
        rw [List.append_nil] at hbase
        obtain ⟨hi, hget⟩ := List.getElem?_eq_some_iff.1 hp
        have hsplit : cs = cs.take i ++ p :: cs.drop (i + 1) := by
          rw [← hget, cons_getElem_drop_succ, take_append_drop]
        rw [hsplit] at hbase
        have hfor := hbase.chunkFor_of_mem he
        rw [length_take, Nat.min_eq_left (Nat.le_of_lt hi)] at hfor
        simp [mem_filter, hfor])
    refine ⟨b', ?_, ⟨xs', by simpa using hrep, hflat⟩, gone, ?_, hmem⟩
    · change b.beforeDestructive.rewriteChunks (b.beforeDestructive.byChunk ids) = _
      rw [Body.byChunk, show b.beforeDestructive.chunks.length = cs.length by
        rw [show b.beforeDestructive.chunks = b.chunks from rfl, hcs.chunks, length_map]]
      exact hrun
    · rw [if_neg (by simpa using htrivial)]
      exact hnoted

theorem delete_is (h : b.Is es) (ids : List StreamID) : ∃ b', b.delete ids =
        some (b', (es.filter fun e => decide (e.id ∈ ids)).length) ∧
      b'.Is (es.filter fun e => !decide (e.id ∈ ids)) := by
  obtain ⟨b', hdel, his, -⟩ := delete_spec h ids
  exact ⟨b', hdel, his⟩

end Mutations

end Stream
end SnugKV
