import SnugKV.Stream.BodyProofs

/-!
# Body refinement — the queries of a stream body, and whole runs

Every query of a body that holds the entries `es` gives the answer a plain list of entries would
give.  With the lemmas about the mutations this makes any run of the chunked body a run of the
sorted list.

* `get_of_is`, `has_of_is`, `forEachFrom_of_is`, `forEachReverse_of_is`, `countBefore_of_is`,
  `countThrough_of_is` — one query each;
* `body_refines_list` — runs of appends, trims, deletions, seals and spills.
-/

namespace SnugKV
namespace Stream

open Lib List Body

/-! ## Queries -/

section Queries

variable {b : Body} {cs : List (Chunk × List StreamEntry)}

/-- The chunks behind a chunk start above its last id. -/
theorem Body.Represents.behind {xs ys : List (Chunk × List StreamEntry)}
    {p : Chunk × List StreamEntry} (h : b.Represents (xs ++ p :: ys)) {e : StreamEntry}
    (he : e ∈ ys.flatMap Prod.snd) : p.1.last < e.id := by
  rcases mem_flatMap.1 he with ⟨q, hq, he⟩
  have hlt := (pairwise_cons.1 (pairwise_append.1 h.chunk_order).2.1).1 q hq
  exact lt_of_lt_of_le hlt (h.bounds (p := q) (by simp [hq]) he).1

/-- What the search says about all entries: those before the cut are below `id`, and only the
first chunk behind it can hold `id`. -/
theorem Body.Represents.chunkFor_cases (h : b.Represents cs) (id : StreamID) :
    (b.chunkFor id = none ∧ ∀ e ∈ cs.flatMap Prod.snd, e.id ≠ id) ∨
      ∃ xs p ys, cs = xs ++ p :: ys ∧ b.chunkFor id = some (xs.length, p.1) ∧
        (∀ e ∈ xs.flatMap Prod.snd, e.id ≠ id) ∧ ∀ e ∈ ys.flatMap Prod.snd, e.id ≠ id := by
  obtain ⟨xs, ys, rfl, hx, hy, hsearch⟩ := h.split_at_or_after id
  have hbefore : ∀ e ∈ xs.flatMap Prod.snd, e.id ≠ id := by
    intro e he
    rcases mem_flatMap.1 he with ⟨q, hq, he⟩
    exact ne_of_lt (lt_of_le_of_lt (h.bounds (mem_append_left _ hq) he).2 (hx q hq))
  cases ys with
  | nil =>
    refine .inl ⟨?_, by simpa using hbefore⟩
    simp [chunkFor, hsearch, h.chunks]
  | cons p ys =>
    have hp : p ∈ xs ++ p :: ys := by simp
    have hbehind : ∀ e ∈ ys.flatMap Prod.snd, e.id ≠ id := fun e he =>
      ne_of_gt (lt_of_le_of_lt (hy p (mem_cons_self ..)) (h.behind he))
    have hget : b.chunks[xs.length]? = some p.1 := by simp [h.chunks]
    by_cases hlt : id < p.1.first
    · refine .inl ⟨by simp [chunkFor, hsearch, hget, hlt], ?_⟩
      intro e he
      rw [flatMap_append, flatMap_cons] at he
      rcases mem_append.1 he with he | he
      · exact hbefore e he
      · rcases mem_append.1 he with he | he
        · exact ne_of_gt (lt_of_lt_of_le hlt (h.bounds hp he).1)
        · exact hbehind e he
    · exact .inr ⟨xs, p, ys, rfl, by simp [chunkFor, hsearch, hget, hlt], hbefore, hbehind⟩

variable {es : List StreamEntry}

theorem find?_eq_none_of_ne {id : StreamID} (h : ∀ e ∈ es, e.id ≠ id) :
    es.find? (fun e => decide (e.id = id)) = none :=
  find?_eq_none.2 fun e he => by simpa using h e he

theorem get_of_is (h : b.Is es) (id : StreamID) :
    b.get id = some (es.find? fun e => decide (e.id = id)) := by
  rcases h with ⟨cs, hcs, rfl⟩
  rcases hcs.chunkFor_cases id with ⟨hfor, hne⟩ | ⟨xs, p, ys, rfl, hfor, hx, hy⟩
  · simp only [Body.get, hfor, find?_eq_none_of_ne hne]
  · have hp : p ∈ xs ++ p :: ys := by simp
    have hhold := hcs.holds p hp
    simp only [Body.get, hfor]
    rw [hhold.count, getFrom_spec hhold.run (hcs.chunk_ascending hp), flatMap_append,
      flatMap_cons, find?_append, find?_eq_none_of_ne hx, find?_append,
      find?_eq_none_of_ne hy]
    simp

theorem has_of_is (h : b.Is es) (id : StreamID) :
    b.has id = some (es.any fun e => decide (e.id = id)) := by
  have hget := get_of_is h id
  have hany : (es.find? fun e => decide (e.id = id)).isSome = es.any fun e => decide (e.id = id) :=
    Bool.eq_iff_iff.2 (find?_isSome.trans any_eq_true.symm)
  rw [← hany]
  unfold Body.get at hget
  unfold Body.has
  cases hfor : b.chunkFor id with
  | none =>
    rw [hfor] at hget
    rw [← Option.some.inj hget]
    rfl
  | some c =>
    rw [hfor] at hget
    exact hasFrom_of_getFrom hget

variable {σ : Type} {fn : σ → StreamEntry → σ × Bool}

theorem visitChunks_spec {pass : StreamID → Bool}
    (hholds : ∀ p ∈ cs, p.1.Holds p.2) (s : σ) :
    visitChunks pass fn (cs.map Prod.fst) s =
      some (visit fn s ((cs.flatMap Prod.snd).filter fun e => pass e.id)) := by
  induction cs generalizing s with
  | nil => rfl
  | cons p cs ih =>
    have hp := hholds p (mem_cons_self ..)
    simp only [map_cons, visitChunks]
    rw [hp.count, visitFrom_spec hp.run, flatMap_cons, filter_append, visit_append]
    simp only [some_bind]
    rw [ih fun q hq => hholds q (mem_cons_of_mem _ hq)]
    split_ifs with hmore
    · rfl
    · simp only [Bool.not_eq_true] at hmore
      rw [← hmore]

/-- The entries from `start` on, in ascending order. -/
def fromStart (start : StreamID) (inclusive : Bool) (es : List StreamEntry) : List StreamEntry :=
  es.filter fun e => if inclusive then decide (start ≤ e.id) else decide (start < e.id)

theorem forEachFrom_of_is (h : b.Is es) (start : StreamID) (inclusive : Bool)
    (fn : σ → StreamEntry → σ × Bool) (s : σ) : b.forEachFrom start inclusive fn s =
      some (visit fn s (fromStart start inclusive es)).1 := by
  rcases h with ⟨cs, hcs, rfl⟩
  set pass : StreamID → Bool := fun id =>
    if inclusive then decide (start ≤ id) else decide (start < id) with hpass
  have htest : ∀ id : StreamID,
      (if inclusive then !id.less start else start.less id) = pass id := by
    intro id
    cases inclusive with
    | true =>
      simp only [hpass, if_true, StreamID.less_eq_decide]
      rw [← decide_not, decide_eq_decide]
      exact not_lt
    | false => simp [hpass]
  have hup : ∀ {a b : StreamID}, a ≤ b → pass a = true → pass b = true := by
    intro a b hle
    cases inclusive with
    | true => simpa [hpass] using fun h => le_trans h hle
    | false => simpa [hpass] using fun h => lt_of_lt_of_le h hle
  have hmono : cs.Pairwise fun p q => pass p.1.last = true → pass q.1.last = true :=
    hcs.chunk_order.imp_of_mem fun _ hq hlt =>
      hup (le_of_lt (lt_of_lt_of_le hlt (hcs.first_le_last hq)))
  obtain ⟨xs, ys, rfl, hx, hy⟩ := exists_split hmono
  have hsearch : b.firstChunkAtOrAfter start inclusive = xs.length := by
    simp only [firstChunkAtOrAfter, hcs.chunks, searchList_map, htest]
    exact searchList_append hx hy
  -- the chunks the search skips hold nothing to visit
  have hskip : (xs.flatMap Prod.snd).filter (fun e => pass e.id) = [] := by
    refine filter_eq_nil_iff.2 fun e he hin => ?_
    rcases mem_flatMap.1 he with ⟨q, hq, he⟩
    have hlast := hup (hcs.bounds (mem_append_left _ hq) he).2 hin
    rw [hx q hq] at hlast
    cases hlast
  have hdrop : b.chunks.drop xs.length = ys.map Prod.fst := by simp [hcs.chunks]
  simp only [forEachFrom, hsearch, hdrop]
  rw [visitChunks_spec fun q hq => hcs.holds q (mem_append_right _ hq)]
  simp only [htest, Option.map_some]
  rw [flatMap_append, fromStart, filter_append, hskip, nil_append]

theorem chunkEntries_spec {data : Bytes} {off : Nat} (h : Run data off es) :
    chunkEntries data es.length off = some es := by
  induction es generalizing off with
  | nil => rfl
  | cons e es ih =>
    obtain ⟨-, -, hdec, hrest⟩ := h.head
    simp [chunkEntries, hdec, ih hrest]

theorem all_of_is (h : b.Is es) : b.all = some es := by
  rcases h with ⟨cs, hcs, rfl⟩
  rw [Body.all, hcs.chunks]
  have hholds := hcs.holds
  clear hcs
  induction cs with
  | nil => rfl
  | cons p cs ih =>
    have hp := hholds p (mem_cons_self ..)
    rw [map_cons, foldr_cons, ih fun q hq => hholds q (mem_cons_of_mem _ hq),
      hp.count, chunkEntries_spec hp.run]
    simp

theorem visitReverse_spec {stop : StreamID}
    (hholds : ∀ p ∈ cs, p.1.Holds p.2) (s : σ) :
    visitReverse stop fn (cs.map Prod.fst).reverse s =
      some (visit fn s ((cs.flatMap Prod.snd).filter fun e => decide (e.id ≤ stop)).reverse) := by
  induction cs using reverseRecOn generalizing s with
  | nil => rfl
  | append_singleton cs p ih =>
    have hp := hholds p (by simp)
    obtain ⟨offs, hoffs, hall⟩ := offsets_spec hp.run
    have hrev := @visitOffsets_spec p.1.data _ σ fn stop _ (rel_reverse hall) s
    simp only [map_append, map_cons, map_nil, reverse_append,
      reverse_cons, reverse_nil, nil_append, singleton_append,
      visitReverse]
    rw [hp.count, hoffs]
    simp only [some_bind]
    rw [hrev, flatMap_append, filter_append, reverse_append, visit_append, filter_reverse]
    simp only [flatMap_cons, flatMap_nil, append_nil, some_bind]
    rw [ih fun q hq => hholds q (by simp [hq])]
    split_ifs with hmore
    · rfl
    · simp only [Bool.not_eq_true] at hmore
      rw [← hmore]

theorem forEachReverse_of_is (h : b.Is es) (stop : StreamID)
    (fn : σ → StreamEntry → σ × Bool) (s : σ) : b.forEachReverse stop fn s =
      some (visit fn s (es.filter fun e => decide (e.id ≤ stop)).reverse).1 := by
  rcases h with ⟨cs, hcs, rfl⟩
  have hmono : cs.Pairwise fun p q => stop.less p.1.first = true → stop.less q.1.first = true := by
    refine hcs.chunk_order.imp_of_mem ?_
    intro p q hp hq hlt
    simp only [StreamID.less_eq_decide, decide_eq_true_eq]
    intro hpass
    exact lt_trans hpass (lt_of_le_of_lt (hcs.first_le_last hp) hlt)
  obtain ⟨xs, ys, rfl, hx, hy⟩ := exists_split hmono
  have hsearch : searchList b.chunks (fun c => stop.less c.first) = xs.length := by
    simp only [hcs.chunks, searchList_map]
    exact searchList_append hx hy
  have hskip : (ys.flatMap Prod.snd).filter (fun e => decide (e.id ≤ stop)) = [] := by
    refine filter_eq_nil_iff.2 fun e he => ?_
    rcases mem_flatMap.1 he with ⟨q, hq, he⟩
    have hle := (hcs.bounds (mem_append_right _ hq) he).1
    have hlt : stop < q.1.first := by simpa using hy q hq
    simpa using lt_of_lt_of_le hlt hle
  have htake : b.chunks.take xs.length = xs.map Prod.fst := by simp [hcs.chunks]
  simp only [forEachReverse, hsearch, htake]
  rw [visitReverse_spec fun q hq => hcs.holds q (mem_append_left _ hq), Option.map_some,
    flatMap_append, filter_append, hskip, append_nil]

variable {xs ys : List (Chunk × List StreamEntry)}

theorem countChunks_spec {minID : StreamID} {limit : Int} (hcs : b.Represents (xs ++ ys))
    (count : Nat) (hcount : ¬ (0 < limit ∧ limit ≤ count)) :
    countChunks minID limit (ys.map Prod.fst) count =
      some (limited limit
        (count + ((ys.flatMap Prod.snd).filter fun e => decide (e.id < minID)).length)) := by
  induction ys generalizing xs count with
  | nil => simp [countChunks, limited, hcount]
  | cons p ys ih =>
    have hp : p ∈ xs ++ p :: ys := by simp
    have hhold := hcs.holds p hp
    rw [map_cons, countChunks, flatMap_cons, filter_append, length_append]
    by_cases hlast : p.1.last < minID
    · -- the whole chunk lies below
      have hall : (p.2.filter fun e => decide (e.id < minID)) = p.2 := by
        refine filter_eq_self.2 fun e he => ?_
        simpa using lt_of_le_of_lt (hcs.bounds hp he).2 hlast
      simp only [StreamID.less_eq_decide, hlast, decide_true, if_true, hall, hhold.count]
      by_cases hstop : 0 < limit ∧ limit ≤ (count : Int) + p.2.length
      · rw [if_pos hstop, limited, if_pos (by push_cast; omega)]
      · rw [if_neg hstop, @ih (xs ++ [p]) (by simpa using hcs) (count + p.2.length)
          (by push_cast; exact hstop), add_assoc]
    · have hnone : (ys.flatMap Prod.snd).filter (fun e => decide (e.id < minID)) = [] := by
        refine filter_eq_nil_iff.2 fun e he => ?_
        simpa using le_trans (not_lt.1 hlast) (hcs.behind he).le
      simp only [StreamID.less_eq_decide, hlast, decide_false, Bool.false_eq_true, if_false]
      rw [hhold.count, countFrom_spec hhold.run (hcs.chunk_ascending hp) count hcount, hnone,
        length_nil, add_zero]

theorem countBefore_of_is (h : b.Is es) (minID : StreamID) (limit : Int) :
    b.countBefore minID limit =
      some (limited limit (es.filter fun e => decide (e.id < minID)).length) := by
  rcases h with ⟨cs, hcs, rfl⟩
  rw [Body.countBefore, hcs.chunks, @countChunks_spec b [] cs minID limit hcs 0 (by omega),
    zero_add]

theorem throughChunks_spec {id : StreamID} (hcs : b.Represents (xs ++ ys)) (count : Nat) :
    throughChunks id (ys.map Prod.fst) count =
      some (count + ((ys.flatMap Prod.snd).filter fun e => decide (e.id ≤ id)).length) := by
  induction ys generalizing xs count with
  | nil => simp [throughChunks]
  | cons p ys ih =>
    have hp : p ∈ xs ++ p :: ys := by simp
    have hhold := hcs.holds p hp
    rw [map_cons, throughChunks, flatMap_cons, filter_append, length_append]
    by_cases hlast : id < p.1.last
    · have hnone : (ys.flatMap Prod.snd).filter (fun e => decide (e.id ≤ id)) = [] := by
        refine filter_eq_nil_iff.2 fun e he => ?_
        simpa using lt_trans hlast (hcs.behind he)
      simp only [StreamID.less_eq_decide, hlast, decide_true, Bool.not_true,
        Bool.false_eq_true, if_false]
      rw [hhold.count, throughFrom_spec hhold.run (hcs.chunk_ascending hp), hnone,
        length_nil, add_zero]
    · have hall : (p.2.filter fun e => decide (e.id ≤ id)) = p.2 := by
        refine filter_eq_self.2 fun e he => ?_
        simpa using le_trans (hcs.bounds hp he).2 (not_lt.1 hlast)
      simp only [StreamID.less_eq_decide, hlast, decide_false, Bool.not_false, if_true, hall,
        hhold.count]
      rw [@ih (xs ++ [p]) (by simpa using hcs), add_assoc]

theorem countThrough_of_is (h : b.Is es) (id : StreamID) :
    b.countThrough id = some (es.filter fun e => decide (e.id ≤ id)).length := by
  rcases h with ⟨cs, hcs, rfl⟩
  rw [countThrough, hcs.chunks, @throughChunks_spec b [] cs id hcs 0, zero_add]

end Queries

/-! ## Runs -/

inductive BodyOp where
  | append (env : Env) (e : StreamEntry) (fits : e.Fits)
  | trimFront (n : Int)
  | delete (ids : List StreamID)
  | sealChunk (i : Nat)
  | spill (env : Env)

def Body.step (b : Body) : BodyOp → Option (Body × Nat)
  | .append env e _ => (b.append env e).map fun b' => (b', 0)
  | .trimFront n => b.trimFront n
  | .delete ids => b.delete ids
  | .sealChunk i => some (b.sealAt i, 0)
  | .spill env => some (b.spillCold env, 0)

def Body.run (b : Body) : List BodyOp → Option (Body × List Nat)
  | [] => some (b, [])
  | op :: ops => do
      let (b, n) ← b.step op
      let (b, ns) ← b.run ops
      some (b, n :: ns)

def listStep (es : List StreamEntry) : BodyOp → List StreamEntry × Nat
  | .append _ e _ => (es ++ [e], 0)
  | .trimFront n => (es.drop n.toNat, min n.toNat es.length)
  | .delete ids => (es.filter fun e => !decide (e.id ∈ ids),
      (es.filter fun e => decide (e.id ∈ ids)).length)
  | .sealChunk _ => (es, 0)
  | .spill _ => (es, 0)

def listRun (es : List StreamEntry) : List BodyOp → List StreamEntry × List Nat
  | [] => (es, [])
  | op :: ops =>
    let (es, n) := listStep es op
    let (es, ns) := listRun es ops
    (es, n :: ns)

/-- Every appended id is above the entries held at that moment. -/
def Increasing (es : List StreamEntry) : List BodyOp → Prop
  | [] => True
  | op :: ops =>
    (match op with
      | .append _ e _ => ∀ x ∈ es, x.id < e.id
      | _ => True) ∧ Increasing (listStep es op).1 ops

/-- The body answers as the list does, and its counters are the list's count and total size. -/
structure Body.Agrees (b : Body) (es : List StreamEntry) : Prop where
  sorted : Ascending es
  get : ∀ id, b.get id = some (es.find? fun e => decide (e.id = id))
  has : ∀ id, b.has id = some (es.any fun e => decide (e.id = id))
  forward : ∀ {σ : Type} (start : StreamID) (inclusive : Bool)
    (fn : σ → StreamEntry → σ × Bool) (s : σ),
    b.forEachFrom start inclusive fn s = some (visit fn s (fromStart start inclusive es)).1
  backward : ∀ {σ : Type} (stop : StreamID) (fn : σ → StreamEntry → σ × Bool) (s : σ),
    b.forEachReverse stop fn s =
      some (visit fn s (es.filter fun e => decide (e.id ≤ stop)).reverse).1
  before : ∀ minID limit, b.countBefore minID limit =
    some (limited limit (es.filter fun e => decide (e.id < minID)).length)
  through : ∀ id, b.countThrough id = some (es.filter fun e => decide (e.id ≤ id)).length
  length : b.length = es.length
  dataBytes : b.dataBytes = (es.map fun e => streamEntrySize e.fields).sum

variable {es : List StreamEntry} {b : Body} {ops : List BodyOp}

theorem length_entriesBytes (h : ∀ e ∈ es, e.Fits) :
    (entriesBytes es).length = (es.map fun e => streamEntrySize e.fields).sum := by
  induction es with
  | nil => rfl
  | cons e es ih =>
    rw [entriesBytes, flatMap_cons, length_append, map_cons, sum_cons,
      ← streamEntrySize_eq (h e (mem_cons_self ..))]
    congr 1
    exact ih fun x hx => h x (mem_cons_of_mem _ hx)

theorem Body.Is.agrees (h : b.Is es) : b.Agrees es where
  sorted := by
    rcases h with ⟨cs, hcs, rfl⟩
    exact hcs.ascending
  get := get_of_is h
  has := has_of_is h
  forward := forEachFrom_of_is h
  backward := forEachReverse_of_is h
  before := countBefore_of_is h
  through := countThrough_of_is h
  length := by
    rcases h with ⟨cs, hcs, rfl⟩
    exact hcs.length
  dataBytes := by
    rcases h with ⟨cs, hcs, rfl⟩
    rw [hcs.dataBytes, length_entriesBytes]
    intro e he
    rcases mem_flatMap.1 he with ⟨p, hp, he⟩
    exact (hcs.holds p hp).fits e he

theorem step_is (h : b.Is es) {op : BodyOp}
    (hinc : Increasing es (op :: ops)) :
    ∃ b', b.step op = some (b', (listStep es op).2) ∧ b'.Is (listStep es op).1 := by
  cases op with
  | append env e fits =>
    obtain ⟨b', happ, his⟩ := append_is env h fits hinc.1
    exact ⟨b', by simp [step, happ, listStep], his⟩
  | trimFront n => exact trimFront_is h n
  | delete ids => exact delete_is h ids
  | sealChunk i => exact ⟨_, rfl, sealAt_is h i⟩
  | spill env => exact ⟨_, rfl, spillCold_is env h⟩

theorem run_is (h : b.Is es) (hinc : Increasing es ops) :
    ∃ b', b.run ops = some (b', (listRun es ops).2) ∧ b'.Is (listRun es ops).1 := by
  induction ops generalizing b es with
  | nil => exact ⟨b, rfl, h⟩
  | cons op ops ih =>
    obtain ⟨b₁, hstep, his⟩ := step_is h hinc
    obtain ⟨b₂, hrun, his₂⟩ := ih his hinc.2
    exact ⟨b₂, by simp [Body.run, hstep, hrun, listRun], his₂⟩

/-- A body built by any run holds, counts and shows exactly what a plain sorted list does. -/
theorem body_refines_list (ops : List BodyOp) (h : Increasing [] ops) :
    ∃ b, ({} : Body).run ops = some (b, (listRun [] ops).2) ∧ b.Agrees (listRun [] ops).1 := by
  obtain ⟨b, hrun, his⟩ := run_is Body.is_empty h
  exact ⟨b, hrun, his.agrees⟩

def appendTrimSeal : List BodyOp :=
  let env : Env := { grow := fun _ n => n, le_grow := fun _ _ => le_refl _ }
  [.append env ⟨⟨1, 1⟩, [⟨[1], [2]⟩]⟩ ⟨by decide, by simp [StreamField.Fits]⟩,
    .append env ⟨⟨1, 2⟩, [⟨[1], [3]⟩]⟩ ⟨by decide, by simp [StreamField.Fits]⟩,
    .trimFront 1, .sealChunk 0]

theorem body_refines_list_trimmed :
    Increasing [] appendTrimSeal ∧
      ∃ b, ({} : Body).run appendTrimSeal = some (b, [0, 0, 1, 0]) ∧
        b.Agrees [⟨⟨1, 2⟩, [⟨[1], [3]⟩]⟩] := by
  have hinc : Increasing [] appendTrimSeal := by
    refine ⟨by simp, ?_, trivial, trivial, trivial⟩
    intro x hx
    rw [mem_singleton.1 hx, ← StreamID.less_iff]
    rfl
  exact ⟨hinc, body_refines_list _ hinc⟩

end Stream
end SnugKV
