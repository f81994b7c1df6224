import Mathlib.Data.Finset.Sort
import SnugKV.Sets.Store

/-!
# History — any run of set commands, and a plain finite set

What the set commands do to the members, for any stored form, and over whole histories.

* `Holds`                 — the key holds the members of a finite set;
* `setAddLocked_holds`, `setAddResults_holds`, `setRemove_holds`, `compactIndexedSet_holds` — one
  command;
* `history_agrees`        — every reply of a careful history is that of a finite set;
* `history_diverges`      — two histories that are not careful.

`Careful` leaves out what the code gets wrong: a member added alone to a front-coded entry of
another width is dropped, and a sole member that looks like the header of a table is read as one.
It also keeps the members within the limit of 32 MiB, where the commands answer with an error.
-/

namespace SnugKV
namespace Sets

open Lib Probe List

/-! ## Ascending lists and finite sets -/

variable {S : Finset Bytes}

theorem sort_eq_of_mem {l : List Bytes} (hsorted : l.Pairwise (· < ·)) (hmem : ∀ x, x ∈ l ↔ x ∈ S) :
    S.sort = l := by
  refine Perm.eq_of_pairwise' (Finset.pairwise_sort S (· ≤ ·)) (hsorted.imp le_of_lt) ?_
  refine (perm_ext_iff_of_nodup (Finset.sort_nodup S _) (hsorted.imp fun hlt => hlt.ne)).2 ?_
  intro x
  rw [Finset.mem_sort, hmem]

theorem pairwise_lt_sort (S : Finset Bytes) : S.sort.Pairwise (· < ·) :=
  (Finset.sortedLT_sort S).pairwise

theorem insertSearched_eq (S : Finset Bytes) (m : Bytes) :
    insertSearched S.sort m = if m ∈ S then (S.sort, 0) else ((insert m S).sort, 1) := by
  have hmono : S.sort.Pairwise fun a b => decide (m ≤ a) = true → decide (m ≤ b) = true :=
    (pairwise_lt_sort S).imp fun hab ha => by
      simp only [decide_eq_true_eq] at ha ⊢
      exact ha.trans hab.le
  obtain ⟨xs, ys, hsplit, hx, hy⟩ := exists_split hmono
  have hsorted := pairwise_lt_sort S
  rw [hsplit, pairwise_append] at hsorted
  obtain ⟨hxs, hys, hcross⟩ := hsorted
  simp only [decide_eq_false_iff_not, not_le, decide_eq_true_eq] at hx hy
  have hindex : searchList (xs ++ ys) (fun x => decide (m ≤ x)) = xs.length :=
    searchList_append (by simpa using hx) (by simpa using hy)
  have hmem : m ∈ S ↔ ys[0]? = some m := by
    rw [← Finset.mem_sort (· ≤ ·), hsplit, mem_append]
    constructor
    · rintro (hin | hin)
      · exact absurd (hx m hin) (lt_irrefl m)
      · -- nothing from the boundary on is smaller
        cases ys with
        | nil => simp at hin
        | cons y ys =>
          rcases mem_cons.1 hin with rfl | hin
          · rfl
          · exact absurd ((pairwise_cons.1 hys).1 m hin) (not_lt.2 (hy y (.head _)))
    · intro hfirst
      exact .inr (mem_of_getElem? hfirst)
  have hat : (xs ++ ys)[xs.length]? = ys[0]? := by
    rw [getElem?_append_right le_rfl, Nat.sub_self]
  simp only [insertSearched, hsplit, hindex, hat, ← hmem, take_left, drop_left]
  by_cases hm : m ∈ S
  · simp [hm]
  · simp only [hm, if_false, Prod.mk.injEq, and_true]
    refine (sort_eq_of_mem ?_ fun x => ?_).symm
    · refine pairwise_append.2 ⟨hxs, pairwise_cons.2 ⟨fun y hin => ?_, hys⟩, ?_⟩
      · refine lt_of_le_of_ne (hy y hin) fun heq => hm ?_
        rw [← Finset.mem_sort (· ≤ ·), hsplit, heq]
        exact mem_append_right _ hin
      · exact fun x hin => forall_mem_cons.2 ⟨hx x hin, hcross x hin⟩
    · have hold : x ∈ xs ∨ x ∈ ys ↔ x ∈ S := by
        rw [← Finset.mem_sort (· ≤ ·), hsplit, mem_append]
      rw [Finset.mem_insert, ← hold, mem_append, mem_cons]
      tauto

theorem insertAll_eq (S : Finset Bytes) (ms : List Bytes) :
    insertAll S.sort ms = ((S ∪ ms.toFinset).sort, (ms.toFinset \ S).card) := by
  induction ms generalizing S with
  | nil => simp [insertAll]
  | cons m ms ih =>
    rw [insertAll, insertSearched_eq, toFinset_cons]
    by_cases hm : m ∈ S
    · simp only [hm, if_true, ih, Prod.mk.injEq, zero_add]
      rw [Finset.insert_sdiff_of_mem _ hm, Finset.union_insert,
        Finset.insert_eq_of_mem (Finset.mem_union_left _ hm)]
      exact ⟨rfl, rfl⟩
    · simp only [hm, if_false, ih, Prod.mk.injEq]
      refine ⟨by rw [Finset.insert_union, Finset.union_insert], ?_⟩
      rw [Finset.insert_sdiff_of_notMem _ hm, Finset.sdiff_insert,
        ← Finset.erase_insert_eq_erase, add_comm,
        Finset.card_erase_add_one (Finset.mem_insert_self ..)]

/-- 1 for each member that is new when its turn comes. -/
def marks (S : Finset Bytes) : List Bytes → List Nat
  | [] => []
  | m :: ms => if m ∈ S then 0 :: marks S ms else 1 :: marks (insert m S) ms

theorem sum_marks (S : Finset Bytes) (ms : List Bytes) :
    (marks S ms).sum = (ms.toFinset \ S).card := by
  induction ms generalizing S with
  | nil => simp [marks]
  | cons m ms ih =>
    rw [marks, toFinset_cons]
    by_cases hm : m ∈ S
    · rw [if_pos hm, sum_cons, ih, zero_add, Finset.insert_sdiff_of_mem _ hm]
    · rw [if_neg hm, sum_cons, ih, Finset.insert_sdiff_of_notMem _ hm, Finset.sdiff_insert,
        ← Finset.erase_insert_eq_erase, add_comm,
        Finset.card_erase_add_one (Finset.mem_insert_self ..)]

theorem appendNew_marks {c : List Bytes} (h : ∀ x, x ∈ c ↔ x ∈ S) (ms : List Bytes) :
    (appendNew c ms).1 = marks S ms := by
  induction ms generalizing S c with
  | nil => rfl
  | cons m ms ih =>
    simp only [appendNew, marks, h m]
    by_cases hm : m ∈ S
    · simp only [hm, if_true, ih h]
    · have hnext : ∀ x, x ∈ c ++ [m] ↔ x ∈ insert m S := by
        intro x
        rw [mem_append, mem_singleton, Finset.mem_insert, h x, or_comm]
      simp only [hm, if_false, ih hnext]

/-! ## Publishing members -/

/-- A sole member that looks like the header of a table. -/
def Masked (S : Finset Bytes) : Prop :=
  ∃ m, S = {m} ∧ isIndexedSet m = true

theorem setPreparedEntryFromMembers_stored (hsorted : ms.Pairwise (· < ·))
    (hpacks : Packs ms) (hmask : ∀ m, ms = [m] → isIndexedSet m = false) :
    Stored (setPreparedEntryFromMembers (packedBytes ms) ms) ms := by
  obtain ⟨hsize, hcount⟩ := packed_size hpacks
  have hpacked := Stored.packed hsorted
  match ms with
  | [] => exact hpacked
  | [m] =>
    simp only [setPreparedEntryFromMembers, Nat.mod_eq_of_lt hsize]
    by_cases htiny : m.take 3 = tinySetHeader
    · simpa only [if_pos htiny] using hpacked
    · simpa only [if_neg htiny] using Stored.single (hmask m rfl) htiny
  | m :: m' :: ms =>
    simp only [setPreparedEntryFromMembers, Nat.mod_eq_of_lt hsize]
    by_cases hwidth : ∀ x ∈ m' :: ms, x.length = m.length
    · simp only [encodeTinyFixedSet, if_pos hwidth]
      split_ifs with hshort
      · have hmax : m.length ≤ packedCapacity (m :: m' :: ms) :=
          member_le_packedCapacity (mem_cons_self ..)
        exact .tiny ⟨hsorted, forall_mem_cons.2 ⟨rfl, hwidth⟩, by simp, hcount,
          hmax.trans hpacks⟩ hshort le_rfl
      · exact hpacked
    · simpa only [encodeTinyFixedSet, if_neg hwidth] using hpacked

theorem not_indexed_of_not_masked (hmask : ¬ Masked S) (m : Bytes) (h : S.sort = [m]) :
    isIndexedSet m = false := by
  by_contra hindexed
  refine hmask ⟨m, ?_, by simpa using hindexed⟩
  rw [← Finset.sort_toFinset S (· ≤ ·), h]
  rfl

/-- The limits of the form the members are published in. -/
def Fits (S : Finset Bytes) : Prop :=
  Packs S.sort ∧ (setPromoteThreshold S.sort ≤ S.card → indexedTotal S.sort ≤ maxPackedSetBytes)

theorem publishMembers_stored (hne : S.Nonempty) (hfits : Fits S) (hmask : ¬ Masked S) :
    ∃ e, publishMembers S.sort = some e ∧ Stored e S.sort := by
  unfold publishMembers
  rw [Finset.length_sort]
  by_cases hmany : setPromoteThreshold S.sort ≤ S.card
  · have hself : S.sort.insertionSort (· ≤ ·) = S.sort :=
      insertionSort_eq_of_perm (.refl _) (pairwise_lt_sort S)
    have hsort : S.sort ≠ [] := by
      obtain ⟨x, hx⟩ := hne
      exact ne_nil_of_mem ((Finset.mem_sort (· ≤ ·)).2 hx)
    obtain ⟨data, hencode, hindexed⟩ := encodeIndexedSet_spec hsort (Finset.sort_nodup S _)
      (by rw [hself]; exact hfits.2 hmany)
    rw [hself] at hindexed
    exact ⟨_, by rw [if_pos hmany, hencode]; rfl, .indexed hindexed (by rwa [Finset.length_sort])⟩
  · refine ⟨_, ?_, setPreparedEntryFromMembers_stored (pairwise_lt_sort S) hfits.1
      (not_indexed_of_not_masked hmask)⟩
    rw [if_neg hmany, encodePackedSetSorted_eq (pairwise_lt_sort S) hfits.1]
    rfl

/-! ## Adding members -/

/-- The key holds the members of the set. -/
def Holds (cell : Option SetEntry) (S : Finset Bytes) : Prop :=
  match cell with
  | none => S = ∅
  | some e => Stored e S.sort ∧ Packs S.sort

/-- The additions bring nothing new, or what is there afterwards can be published. -/
def Grows (S : Finset Bytes) (ms : List Bytes) : Prop :=
  ms.toFinset ⊆ S ∨ Fits (S ∪ ms.toFinset) ∧ ¬ Masked (S ∪ ms.toFinset)

theorem Grows.packs (h : Grows S ms) (hpacks : Packs S.sort) : Packs (S ∪ ms.toFinset).sort := by
  rcases h with hsub | ⟨hfits, -⟩
  · rwa [Finset.union_eq_left.2 hsub]
  · exact hfits.1

theorem addDecoded_holds {cell : Option SetEntry} (h : Holds cell S) (hgrows : Grows S ms) :
    ∃ cell', addDecoded cell S.sort ms = (.ok (ms.toFinset \ S).card, cell') ∧
      Holds cell' (S ∪ ms.toFinset) := by
  simp only [addDecoded, insertAll_eq]
  by_cases hnone : (ms.toFinset \ S).card = 0
  · have hsub : ms.toFinset ⊆ S := Finset.sdiff_eq_empty_iff_subset.1 (Finset.card_eq_zero.1 hnone)
    refine ⟨cell, by rw [if_pos hnone, hnone], ?_⟩
    rwa [Finset.union_eq_left.2 hsub]
  · rcases hgrows with hsub | ⟨hfits, hmask⟩
    · rw [Finset.sdiff_eq_empty_iff_subset.2 hsub] at hnone
      exact absurd rfl hnone
    · obtain ⟨m, hm⟩ := Finset.card_ne_zero.1 hnone
      have hne : (S ∪ ms.toFinset).Nonempty :=
        ⟨m, Finset.mem_union_right _ (Finset.mem_sdiff.1 hm).1⟩
      obtain ⟨e, hpublish, hstored⟩ := publishMembers_stored hne hfits hmask
      exact ⟨some e, by rw [if_neg hnone, hpublish], hstored, hfits.1⟩

section Threshold

theorem setPromoteThreshold_of_width {ms : List Bytes} {w : Nat} (htwo : 2 ≤ ms.length)
    (h : ∀ x ∈ ms, x.length = w) : setPromoteThreshold ms = tinySetMaxMembers := by
  match ms, htwo with
  | m :: m' :: ms, _ =>
    obtain ⟨hm, htail⟩ := forall_mem_cons.1 h
    rw [setPromoteThreshold, if_pos fun x hx => (htail x hx).trans hm.symm]

theorem setPromoteThreshold_cases (ms : List Bytes) :
    setPromoteThreshold ms = indexedSetPromoteMembers ∨
      setPromoteThreshold ms = tinySetMaxMembers ∧ ∃ w, ∀ x ∈ ms, x.length = w := by
  unfold setPromoteThreshold
  split
  · next m m' ms =>
      split_ifs with hwidth
      · exact .inr ⟨rfl, m.length, forall_mem_cons.2 ⟨rfl, hwidth⟩⟩
      · exact .inl rfl
  · exact .inl rfl

/-- Once there are enough members for a table, more members are enough as well. -/
theorem setPromoteThreshold_mono {ms ms' : List Bytes} (hsub : ms ⊆ ms')
    (hlen : ms.length ≤ ms'.length) (h : setPromoteThreshold ms ≤ ms.length) :
    setPromoteThreshold ms' ≤ ms'.length := by
  have hleast : indexedSetPromoteMembers ≤ setPromoteThreshold ms := by
    rcases setPromoteThreshold_cases ms with heq | ⟨heq, -⟩ <;> rw [heq]
    decide
  rcases setPromoteThreshold_cases ms' with heq | ⟨heq, w, hwidth⟩
  · omega
  · have htwo : 2 ≤ indexedSetPromoteMembers := by decide
    have hsame : setPromoteThreshold ms = tinySetMaxMembers :=
      setPromoteThreshold_of_width (by omega) fun x hx => hwidth x (hsub hx)
    omega

end Threshold

variable {S : Finset Bytes} {ms : List Bytes} {cell : Option SetEntry} {e : SetEntry} {m : Bytes}

theorem keepTable_holds {α : Type} (hindexed : Indexed e.data S.sort)
    (hmany : setPromoteThreshold S.sort ≤ S.sort.length) (hpacks : Packs S.sort)
    (hgrows : Grows S ms) (reply : List Nat → α) :
    ∃ cell', keepTable e (indexedSetAddResults e.data ms) reply =
        (.ok (reply (marks S ms)), cell') ∧ Holds cell' (S ∪ ms.toFinset) := by
  obtain ⟨used, cells, htable, hperm, hroom⟩ := hindexed.table
  have hlen : S.sort.length = (entries cells).length := by rw [← hperm.length_eq, length_keys]
  rw [hlen] at htable
  have hmem : ∀ x, x ∈ keys cells ↔ x ∈ S := fun x => hperm.mem_iff.trans (Finset.mem_sort _)
  have hall : (appendNew (keys cells) ms).2.insertionSort (· ≤ ·) = (S ∪ ms.toFinset).sort := by
    have hnodup : (keys cells).Nodup := htable.probed.keys_nodup
    refine (sort_eq_of_mem (pairwise_lt_insertionSort (nodup_appendNew hnodup ms)) fun x => ?_).symm
    rw [mem_insertionSort, mem_appendNew, hmem, Finset.mem_union, mem_toFinset]
  have hcount : setPromoteThreshold (S ∪ ms.toFinset).sort ≤ (S ∪ ms.toFinset).sort.length := by
    refine setPromoteThreshold_mono (fun x hx => ?_) ?_ hmany
    · rw [Finset.mem_sort] at hx ⊢
      exact Finset.mem_union_left _ hx
    · rw [Finset.length_sort, Finset.length_sort]
      exact Finset.card_le_card Finset.subset_union_left
  have hlimit : (∃ m ∈ ms, m ∉ keys cells) →
      indexedTotal ((appendNew (keys cells) ms).2.insertionSort (· ≤ ·)) ≤ maxPackedSetBytes := by
    rintro ⟨m, hm, hnew⟩
    rw [hall]
    rcases hgrows with hsub | ⟨hfits, -⟩
    · exact absurd ((hmem m).2 (hsub (mem_toFinset.2 hm))) hnew
    · exact hfits.2 (by rwa [Finset.length_sort] at hcount)
  obtain ⟨rebuilt, hresult, hstored⟩ := addEach_spec htable (by omega) hlimit
  rw [hall] at hstored
  have hadd : indexedSetAddResults e.data ms = addEach cells.length
      (indexedSetFixed + cells.length * 4) e.data (entries cells).length used ms := by
    rw [indexedSetAddResults, htable.indexedSetMeta_eq]
  rw [appendNew_marks hmem] at hresult
  rw [keepTable, hadd, hresult]
  cases rebuilt with
  | none => exact ⟨_, rfl, .indexed hstored hcount, hgrows.packs hpacks⟩
  | some data => exact ⟨_, rfl, .indexed hstored hcount, hgrows.packs hpacks⟩

theorem addGeneric_holds (h : Holds (some e) S) (hgrows : Grows S ms) :
    ∃ cell', addGeneric e ms = (.ok (ms.toFinset \ S).card, cell') ∧
      Holds cell' (S ∪ ms.toFinset) := by
  obtain ⟨hstored, hpacks⟩ := h
  unfold addGeneric
  by_cases htable : isIndexedSet e.data = true
  · rw [if_pos htable]
    obtain ⟨hindexed, hmany⟩ := hstored.indexed_of_header htable
    obtain ⟨cell', heq, hholds⟩ := keepTable_holds hindexed hmany hpacks hgrows sum
    exact ⟨cell', by rw [heq, sum_marks], hholds⟩
  · rw [if_neg htable, setMembersFromEntry_of_stored hstored hpacks]
    exact addDecoded_holds (show Holds (some e) S from ⟨hstored, hpacks⟩) hgrows

/-- A front-coded key takes a member of this width. -/
def WidthFits (cell : Option SetEntry) (m : Bytes) : Prop :=
  ∀ e, cell = some e → ∀ n w off, tinyHead e.data = some (n, w, off) → m.length = w

/-- One more member in the packed form, as long as the number of members takes one byte. -/
theorem length_packedBytes_insert (h : ms.length + 1 < 128) :
    (packedBytes (insertMember m ms)).length =
      (packedBytes ms).length + (recordBytes m).length := by
  have hperm : (insertMember m ms).Perm (m :: ms) := perm_orderedInsert _ m ms
  have hrecords := recordsLength_perm hperm
  rw [recordsLength_cons] at hrecords
  simp only [recordsLength] at hrecords
  rw [← length_packedBytes, ← length_packedBytes, hrecords, hperm.length_eq, length_cons,
    length_putUvarint_of_lt h, length_putUvarint_of_lt (by omega)]
  omega

theorem stored_insert {x : Bytes} {rest : List Bytes} (hsort : S.sort = x :: rest)
    (hfixed : Fixed x rest) (hdata : e.data = tinyBytes x rest)
    (hshort : (tinyBytes x rest).length < e.rawLength)
    (hraw : e.rawLength ≤ (packedBytes (x :: rest)).length) (hm : m ∉ S)
    (hwidth : m.length = x.length) (hcount : rest.length + 2 < 128)
    (hpacks : Packs (S ∪ {m}).sort) :
    ∃ tiny, tinyFixedSetAddOne e.data m = some ⟨some tiny, rest.length + 2, x.length⟩ ∧
      Stored ⟨(e.rawLength + x.length + 1) % 2 ^ 32, tiny⟩ (S ∪ {m}).sort := by
  have hmem : ∀ y, y ∈ x :: rest ↔ y ∈ S := by
    intro y
    rw [← hsort, Finset.mem_sort]
  have hnot : m ∉ x :: rest := fun hin => hm ((hmem m).1 hin)
  obtain ⟨y, ys, hinsert, hadd⟩ := tinyFixedSetAddOne_of_notMem hfixed hwidth hnot
  have hnew : ∀ z, z ∈ y :: ys ↔ z = m ∨ z ∈ x :: rest := by
    intro z
    rw [← hinsert]
    exact mem_orderedInsert _
  have hsorted : (y :: ys).Pairwise (· < ·) := hinsert ▸ pairwise_insertMember hfixed.sorted hnot
  have hunion : (S ∪ {m}).sort = y :: ys := by
    refine sort_eq_of_mem hsorted fun z => ?_
    rw [hnew, hmem, Finset.mem_union, Finset.mem_singleton, or_comm]
  have hlength : ys.length = rest.length + 1 := by
    have hlen := congrArg length hinsert
    rw [insertMember, orderedInsert_length, length_cons, length_cons] at hlen
    omega
  have hall : ∀ z ∈ y :: ys, z.length = x.length := by
    intro z hz
    rcases (hnew z).1 hz with rfl | hz
    · exact hwidth
    · exact hfixed.width z hz
  have hy : y.length = x.length := hall y (mem_cons_self ..)
  have hfixed' : Fixed y ys :=
    ⟨hsorted, fun z hz => (hall z hz).trans hy.symm, ne_nil_of_length_pos (by omega),
      by rw [hlength]; exact le_trans (by omega) (show 128 ≤ maxPackedSetBytes by decide),
      hy ▸ hfixed.wide⟩
  have hgrowth := tinyBytes_insert_le hfixed hwidth hnot hinsert hcount
  have hpacked := @length_packedBytes_insert (x :: rest) m (by rw [length_cons]; omega)
  rw [hinsert] at hpacked
  rw [hunion] at hpacks ⊢
  have hsize := (packed_size hpacks).1
  have hrecord : m.length + 1 ≤ (recordBytes m).length := by
    have := length_putUvarint_pos m.length
    rw [recordBytes, length_append]
    omega
  refine ⟨tinyBytes y ys, by rw [hdata, hadd], ?_⟩
  exact .tiny hfixed' (by omega) (by omega)

theorem setAddLocked_tiny (h : Holds (some e) S) (hgrows : Grows S [m])
    (hheader : e.data.take 3 = tinySetHeader) (hwidth : m ∉ S → WidthFits (some e) m) :
    ∃ cell', setAddLocked (some e) [m] = (.ok ({m} \ S : Finset Bytes).card, cell') ∧
      Holds cell' (S ∪ {m}) := by
  have hset : ([m] : List Bytes).toFinset = {m} := by simp
  have hgeneric := addGeneric_holds h hgrows
  obtain ⟨hstored, hpacks⟩ := h
  obtain ⟨x, rest, hsort, hfixed, hdata, hshort, hraw⟩ := hstored.tiny_of_header hheader
  have hnext := hgrows.packs hpacks
  rw [hset] at hgeneric hnext
  simp only [setAddLocked, if_pos hheader]
  by_cases hm : m ∈ S
  · have hin : m ∈ x :: rest := by rwa [← hsort, Finset.mem_sort]
    have hsub : ({m} : Finset Bytes) ⊆ S := Finset.singleton_subset_iff.2 hm
    rw [hdata, tinyFixedSetAddOne_of_mem hfixed hin]
    refine ⟨some e, by rw [Finset.sdiff_eq_empty_iff_subset.2 hsub, Finset.card_empty], ?_⟩
    rw [Finset.union_eq_left.2 hsub]
    exact ⟨hstored, hpacks⟩
  · have hnot : m ∉ x :: rest := by rwa [← hsort, Finset.mem_sort]
    have hw : m.length = x.length :=
      hwidth hm e rfl _ _ _ (by rw [hdata, tinyHead_tinyBytes hfixed])
    have hcard : ({m} \ S : Finset Bytes).card = 1 := by
      rw [Finset.sdiff_eq_self_of_disjoint (Finset.disjoint_singleton_left.2 hm),
        Finset.card_singleton]
    by_cases hcount : rest.length + 2 < tinySetMaxMembers
    · rw [hsort] at hraw
      obtain ⟨tiny, hadd, hnew⟩ := stored_insert hsort hfixed hdata hshort hraw hm hw hcount hnext
      -- both numbers of members take one byte
      have hone : (putUvarint (rest.length + 2)).length = 1 := length_putUvarint_of_lt hcount
      have htwo : (putUvarint (rest.length + 2 - 1)).length = 1 :=
        length_putUvarint_of_lt (lt_of_le_of_lt (Nat.sub_le ..) hcount)
      refine ⟨some _, ?_, hnew, hnext⟩
      simp only [hadd, if_pos hcount, hone, htwo, hcard, Nat.sub_self, add_zero]
    · obtain ⟨y, ys, -, hadd⟩ := tinyFixedSetAddOne_of_notMem hfixed hw hnot
      rw [hdata, hadd]
      simpa only [if_neg hcount] using hgeneric

theorem setAddLocked_holds (h : Holds cell S) (hgrows : Grows S ms)
    (hwidth : ∀ m, ms = [m] → m ∉ S → WidthFits cell m) :
    ∃ cell', setAddLocked cell ms = (.ok (ms.toFinset \ S).card, cell') ∧
      Holds cell' (S ∪ ms.toFinset) := by
  cases cell with
  | none =>
    have hempty : S = ∅ := h
    subst hempty
    simpa [setAddLocked] using addDecoded_holds h hgrows
  | some e =>
    have hgeneric := addGeneric_holds h hgrows
    match ms with
    | [] => exact hgeneric
    | _ :: _ :: _ => exact hgeneric
    | [m] =>
      by_cases hheader : e.data.take 3 = tinySetHeader
      · simpa using setAddLocked_tiny h hgrows hheader (hwidth m rfl)
      · simpa only [setAddLocked, if_neg hheader] using hgeneric

/-! ## The other commands -/

section

variable (h : Holds cell S)

include h

theorem setContains_holds (m : Bytes) : setContains cell m = some (decide (m ∈ S)) := by
  cases cell with
  | none =>
    have hempty : S = ∅ := h
    simp [setContains, hempty]
  | some e =>
    simp only [setContains, setContainsPhysical_of_stored h.1 h.2 m, Finset.mem_sort]

theorem setMembers_holds : setMembers cell = some S.sort := by
  cases cell with
  | none =>
    have hempty : S = ∅ := h
    simp [setMembers, hempty]
  | some e => exact setMembersFromEntry_of_stored h.1 h.2

theorem setLen_holds : setLen cell = some S.card := by
  cases cell with
  | none =>
    have hempty : S = ∅ := h
    simp [setLen, hempty]
  | some e => rw [setLen_of_stored h.1 h.2, Finset.length_sort]

/-- The members still to be added, each once, and 1 for each of them. -/
theorem pendingMembers_holds (seen ms : List Bytes) :
    ∃ pending, pendingMembers cell seen ms = some (marks (S ∪ seen.toFinset) ms, pending) ∧
      pending.toFinset = ms.toFinset \ (S ∪ seen.toFinset) := by
  induction ms generalizing seen with
  | nil => exact ⟨[], rfl, by simp⟩
  | cons m ms ih =>
    rw [pendingMembers, marks, toFinset_cons]
    by_cases hseen : m ∈ seen
    · have hin : m ∈ S ∪ seen.toFinset := Finset.mem_union_right _ (mem_toFinset.2 hseen)
      obtain ⟨pending, hpending, hset⟩ := ih seen
      refine ⟨pending, by rw [if_pos hseen, hpending, if_pos hin]; rfl, ?_⟩
      rw [hset, Finset.insert_sdiff_of_mem _ hin]
    · have hnext : S ∪ (m :: seen).toFinset = insert m (S ∪ seen.toFinset) := by
        rw [toFinset_cons, Finset.union_insert]
      obtain ⟨pending, hpending, hset⟩ := ih (m :: seen)
      rw [hnext] at hpending hset
      simp only [if_neg hseen, setContains_holds h, hpending, some_bind]
      by_cases hm : m ∈ S
      · have hin : m ∈ S ∪ seen.toFinset := Finset.mem_union_left _ hm
        rw [Finset.insert_eq_of_mem hin] at hset
        refine ⟨pending, by simp [hm], ?_⟩
        rw [hset, Finset.insert_sdiff_of_mem _ hin]
      · have hout : m ∉ S ∪ seen.toFinset := by
          rw [Finset.mem_union, mem_toFinset]
          exact not_or.2 ⟨hm, hseen⟩
        refine ⟨m :: pending, by simp [hm, hout], ?_⟩
        rw [toFinset_cons, hset, Finset.sdiff_insert, Finset.insert_sdiff_of_notMem _ hout,
          ← Finset.erase_insert_eq_erase, Finset.insert_erase (Finset.mem_insert_self ..)]

theorem addPending_holds (hgrows : Grows S ms)
    (hwidth : ∀ m, ms.toFinset \ S = {m} → WidthFits cell m) :
    ∃ cell', addPending cell ms = (.ok (marks S ms), cell') ∧ Holds cell' (S ∪ ms.toFinset) := by
  obtain ⟨pending, hpending, hset⟩ := pendingMembers_holds h [] ms
  rw [toFinset_nil, Finset.union_empty] at hpending hset
  have hunion : S ∪ pending.toFinset = S ∪ ms.toFinset := by
    rw [hset, Finset.union_sdiff_self_eq_union]
  simp only [addPending, hpending]
  by_cases hnone : pending = []
  · refine ⟨cell, by rw [if_pos hnone], ?_⟩
    rw [← hunion, hnone, toFinset_nil, Finset.union_empty]
    exact h
  · have hgrows' : Grows S pending := by
      unfold Grows
      rw [hunion]
      rcases hgrows with hsub | hfits
      · exact .inl (by rw [hset]; exact Finset.sdiff_subset.trans hsub)
      · exact .inr hfits
    obtain ⟨cell', hadd, hholds⟩ := setAddLocked_holds h hgrows' fun m hone _ =>
      hwidth m (by rw [← hset, hone]; simp)
    exact ⟨cell', by rw [if_neg hnone, hadd], hunion ▸ hholds⟩

end

theorem setAddResults_holds (hne : ms ≠ []) (h : Holds cell S) (hgrows : Grows S ms)
    (hwidth : ∀ m, ms.toFinset \ S = {m} → WidthFits cell m) :
    ∃ cell', setAddResults cell ms = (.ok (marks S ms), cell') ∧ Holds cell' (S ∪ ms.toFinset) := by
  have hpending := addPending_holds h hgrows hwidth
  unfold setAddResults
  rw [if_neg hne]
  cases cell with
  | none => exact hpending
  | some e =>
    by_cases hheader : isIndexedSet e.data = true
    · obtain ⟨hindexed, hmany⟩ := h.1.indexed_of_header hheader
      obtain ⟨t, hmeta, -⟩ := hindexed.indexedSetMeta
      simp only [hheader, if_true, hmeta]
      by_cases hbig : t.count ≥ 128
      · simpa only [if_pos hbig, id] using keepTable_holds hindexed hmany h.2 hgrows id
      · simpa only [if_neg hbig] using hpending
    · simpa only [if_neg hheader] using hpending

theorem sort_filter (S : Finset Bytes) (ms : List Bytes) :
    S.sort.filter (· ∉ ms) = (S \ ms.toFinset).sort := by
  refine (sort_eq_of_mem ((pairwise_lt_sort S).filter _) fun x => ?_).symm
  simp

theorem packs_sdiff {T : Finset Bytes} (h : Packs S.sort) : Packs (S \ T).sort := by
  have hsub : (S \ T).sort.Sublist S.sort := by
    have := sort_filter S T.sort
    rw [Finset.sort_toFinset] at this
    rw [← this]
    exact filter_sublist
  have hsum := (hsub.map fun m => m.length + maxVarintLen64).sum_le_sum fun _ _ => Nat.zero_le _
  unfold Packs packedCapacity at h ⊢
  omega

theorem setRemove_holds (h : Holds cell S) (hmask : ¬ Masked (S \ ms.toFinset)) :
    ∃ cell', setRemove cell ms = (.ok (S ∩ ms.toFinset).card, cell') ∧
      Holds cell' (S \ ms.toFinset) := by
  cases cell with
  | none =>
    have hempty : S = ∅ := h
    subst hempty
    exact ⟨none, by simp [setRemove], by simp [Holds]⟩
  | some e =>
    have hremoved : S.sort.length - (S \ ms.toFinset).sort.length = (S ∩ ms.toFinset).card := by
      have := Finset.card_sdiff_add_card_inter S ms.toFinset
      rw [Finset.length_sort, Finset.length_sort]
      omega
    by_cases hms : ms = []
    · subst hms
      exact ⟨some e, by simp [setRemove], by simpa using h⟩
    · simp only [setRemove, if_neg hms, setMembersFromEntry_of_stored h.1 h.2, sort_filter,
        hremoved]
      by_cases hzero : (S ∩ ms.toFinset).card = 0
      · have hsame : S \ ms.toFinset = S :=
          Finset.sdiff_eq_self_of_disjoint
            (Finset.disjoint_iff_inter_eq_empty.2 (Finset.card_eq_zero.1 hzero))
        exact ⟨some e, by rw [if_pos hzero, hzero], hsame.symm ▸ h⟩
      · rw [if_neg hzero]
        by_cases hgone : (S \ ms.toFinset).sort = []
        · refine ⟨none, by rw [if_pos hgone], ?_⟩
          have := Finset.sort_toFinset (S \ ms.toFinset) (· ≤ ·)
          rw [hgone] at this
          exact this.symm
        · have hpacks := packs_sdiff (T := ms.toFinset) h.2
          have hsorted := pairwise_lt_sort (S \ ms.toFinset)
          have hencode : encodePackedSet (S \ ms.toFinset).sort =
              some (packedBytes (S \ ms.toFinset).sort) := by
            rw [encodePackedSet, insertionSort_eq_of_perm (.refl _) hsorted,
              encodePackedSetSorted_eq hsorted hpacks]
          obtain ⟨hsize, hcount⟩ := packed_size hpacks
          refine ⟨some _, by rw [if_neg hgone, hencode], ?_, hpacks⟩
          rw [setPreparedEntry, decodePackedSet_packedBytes hsorted (by omega) hcount]
          exact setPreparedEntryFromMembers_stored hsorted hpacks (not_indexed_of_not_masked hmask)

theorem compactIndexedSet_holds (h : Holds cell S) : Holds (compactIndexedSet cell) S := by
  cases cell with
  | none => exact h
  | some e =>
    unfold compactIndexedSet
    by_cases hheader : isIndexedSet e.data = true
    · obtain ⟨hindexed, hmany⟩ := h.1.indexed_of_header hheader
      obtain ⟨used, cells, htable, hperm, hroom⟩ := hindexed.table
      have hleast : ¬ S.sort.length < 32 := by
        rcases setPromoteThreshold_cases S.sort with heq | ⟨heq, -⟩ <;> rw [heq] at hmany
        · exact not_lt.2 hmany
        · exact not_lt.2 (le_trans (by decide) hmany)
      simp only [hheader, not_true_eq_false, if_false, htable.indexedSetMeta_eq, if_neg hleast]
      split_ifs
      · exact h
      · exact ⟨.indexed ⟨hindexed.sorted, used, cells, htable.take, hperm, hroom⟩ hmany, h.2⟩
    · simpa only [if_pos hheader] using h

/-! ## Histories -/

inductive Command where
  | add (members : List Bytes)
  /-- A pipeline of additions of one member each. -/
  | addEach (members : List Bytes)
  | remove (members : List Bytes)
  | contains (member : Bytes)
  | members
  | card
  /-- The background compaction, which has no reply. -/
  | compact
  deriving DecidableEq, Repr

inductive Reply where
  | count (n : Nat)
  | counts (ns : List Nat)
  | flag (b : Bool)
  | list (ms : List Bytes)
  | nothing
  | error (e : SetError)
  deriving DecidableEq, Repr

def Reply.ofOutcome {α : Type} (f : α → Reply) : Except SetError α → Reply
  | .ok a => f a
  | .error e => .error e

def Reply.ofRead {α : Type} (f : α → Reply) : Option α → Reply
  | some a => f a
  | none => .error .damaged

def perform (cell : Option SetEntry) : Command → Reply × Option SetEntry
  | .add ms => let (r, cell) := setAdd cell ms; (.ofOutcome .count r, cell)
  | .addEach ms => let (r, cell) := setAddResults cell ms; (.ofOutcome .counts r, cell)
  | .remove ms => let (r, cell) := setRemove cell ms; (.ofOutcome .count r, cell)
  | .contains m => (.ofRead .flag (setContains cell m), cell)
  | .members => (.ofRead .list (setMembers cell), cell)
  | .card => (.ofRead .count (setLen cell), cell)
  | .compact => (.nothing, compactIndexedSet cell)

def answer (S : Finset Bytes) : Command → Reply × Finset Bytes
  | .add ms =>
    if ms = [] then (.error .memberCount, S)
    else (.count (ms.toFinset \ S).card, S ∪ ms.toFinset)
  | .addEach ms =>
    if ms = [] then (.error .memberCount, S) else (.counts (marks S ms), S ∪ ms.toFinset)
  | .remove ms => (.count (S ∩ ms.toFinset).card, S \ ms.toFinset)
  | .contains m => (.flag (decide (m ∈ S)), S)
  | .members => (.list S.sort, S)
  | .card => (.count S.card, S)
  | .compact => (.nothing, S)

/-- The replies to a history and what it leaves. -/
def history {σ : Type} (step : σ → Command → Reply × σ) : σ → List Command → List Reply × σ
  | s, [] => ([], s)
  | s, c :: cs =>
    let (r, s) := step s c
    let (rs, s) := history step s cs
    (r :: rs, s)

/-- Neither of the two mistakes and no limit is met. -/
def Careful (cell : Option SetEntry) (S : Finset Bytes) : Command → Prop
  | .add ms => Grows S ms ∧ ∀ m, ms = [m] → m ∉ S → WidthFits cell m
  | .addEach ms => Grows S ms ∧ ∀ m, ms.toFinset \ S = {m} → WidthFits cell m
  | .remove ms => ¬ Masked (S \ ms.toFinset)
  | _ => True

/-- Every command of the history is careful when its turn comes. -/
def CarefulHistory : Option SetEntry → Finset Bytes → List Command → Prop
  | _, _, [] => True
  | cell, S, c :: cs =>
    Careful cell S c ∧ CarefulHistory (perform cell c).2 (answer S c).2 cs

section Decide

/-- The members in ascending order, by a sort that is recursive on the list. -/
def ascending (S : Finset Bytes) : List Bytes :=
  Quot.liftOn S.val (List.insertionSort (· ≤ ·)) fun _ _ hperm =>
    ((perm_insertionSort _ _).trans (hperm.trans (perm_insertionSort _ _).symm)).eq_of_pairwise'
      (pairwise_insertionSort _ _) (pairwise_insertionSort _ _)

theorem ascending_eq (S : Finset Bytes) : ascending S = S.sort := by
  obtain ⟨⟨l⟩, hnodup⟩ := S
  refine (sort_eq_of_mem (pairwise_lt_insertionSort hnodup) fun x => ?_).symm
  rw [mem_insertionSort]
  rfl

instance (S : Finset Bytes) : Decidable (Fits S) :=
  decidable_of_iff (packedCapacity (ascending S) ≤ maxPackedSetBytes ∧
      (setPromoteThreshold (ascending S) ≤ S.card → indexedTotal (ascending S) ≤ maxPackedSetBytes))
    (by rw [ascending_eq]; rfl)

theorem masked_iff (S : Finset Bytes) : Masked S ↔ S.card = 1 ∧ ∀ m ∈ S, isIndexedSet m = true := by
  constructor
  · rintro ⟨m, rfl, hm⟩
    simpa using hm
  · rintro ⟨hone, hall⟩
    obtain ⟨m, rfl⟩ := Finset.card_eq_one.1 hone
    exact ⟨m, rfl, hall m (Finset.mem_singleton_self m)⟩

instance (S : Finset Bytes) : Decidable (Masked S) :=
  decidable_of_iff _ (masked_iff S).symm

instance (S : Finset Bytes) (ms : List Bytes) : Decidable (Grows S ms) :=
  inferInstanceAs (Decidable (_ ∨ _ ∧ _))

theorem widthFits_iff (cell : Option SetEntry) (m : Bytes) :
    WidthFits cell m ↔ ∀ e ∈ cell, ∀ t ∈ tinyHead e.data, m.length = t.2.1 := by
  constructor
  · rintro h e he ⟨n, w, off⟩ ht
    exact h e he n w off ht
  · intro h e he n w off ht
    exact h e he (n, w, off) ht

instance (cell : Option SetEntry) (m : Bytes) : Decidable (WidthFits cell m) :=
  decidable_of_iff _ (widthFits_iff cell m).symm

theorem careful_addEach_iff (cell : Option SetEntry) (S : Finset Bytes) (ms : List Bytes) :
    (∀ m, ms.toFinset \ S = {m} → WidthFits cell m) ↔
      ((ms.toFinset \ S).card = 1 → ∀ m ∈ ms.toFinset \ S, WidthFits cell m) := by
  constructor
  · intro h hone m hm
    obtain ⟨x, hx⟩ := Finset.card_eq_one.1 hone
    rw [hx, Finset.mem_singleton] at hm
    exact h m (hm ▸ hx)
  · intro h m hm
    exact h (Finset.card_eq_one.2 ⟨m, hm⟩) m (hm ▸ Finset.mem_singleton_self m)

theorem careful_add_iff (cell : Option SetEntry) (S : Finset Bytes) (ms : List Bytes) :
    (∀ m, ms = [m] → m ∉ S → WidthFits cell m) ↔ ∀ m ∈ ms, ms = [m] → m ∉ S → WidthFits cell m :=
  ⟨fun h m _ => h m, fun h m hm => h m (hm ▸ mem_singleton_self m) hm⟩

instance (cell : Option SetEntry) (S : Finset Bytes) (c : Command) : Decidable (Careful cell S c) :=
  match c with
  | .add ms =>
    have : Decidable (∀ m, ms = [m] → m ∉ S → WidthFits cell m) :=
      decidable_of_iff _ (careful_add_iff cell S ms).symm
    inferInstanceAs (Decidable (_ ∧ _))
  | .addEach ms =>
    have : Decidable (∀ m, ms.toFinset \ S = {m} → WidthFits cell m) :=
      decidable_of_iff _ (careful_addEach_iff cell S ms).symm
    inferInstanceAs (Decidable (_ ∧ _))
  | .remove _ => inferInstanceAs (Decidable (¬ _))
  | .contains _ | .members | .card | .compact => isTrue trivial

instance carefulHistoryDecidable (cell : Option SetEntry) (S : Finset Bytes) :
    (cs : List Command) → Decidable (CarefulHistory cell S cs)
  | [] => isTrue trivial
  | c :: cs =>
    have := carefulHistoryDecidable (perform cell c).2 (answer S c).2 cs
    inferInstanceAs (Decidable (_ ∧ _))

end Decide

theorem perform_agrees {c : Command} (h : Holds cell S) (hcareful : Careful cell S c) :
    (perform cell c).1 = (answer S c).1 ∧ Holds (perform cell c).2 (answer S c).2 := by
  cases c with
  | add ms =>
    by_cases hne : ms = []
    · simpa [perform, setAdd, answer, hne, Reply.ofOutcome] using h
    · obtain ⟨cell', hadd, hholds⟩ := setAddLocked_holds h hcareful.1 hcareful.2
      simpa [perform, setAdd, answer, hne, hadd, Reply.ofOutcome] using hholds
  | addEach ms =>
    by_cases hne : ms = []
    · simpa [perform, setAddResults, answer, hne, Reply.ofOutcome] using h
    · obtain ⟨cell', hadd, hholds⟩ := setAddResults_holds hne h hcareful.1 hcareful.2
      simpa [perform, answer, hne, hadd, Reply.ofOutcome] using hholds
  | remove ms =>
    obtain ⟨cell', hremove, hholds⟩ := setRemove_holds h hcareful
    simpa [perform, answer, hremove, Reply.ofOutcome] using hholds
  | contains m => exact ⟨by simp [perform, answer, setContains_holds h, Reply.ofRead], h⟩
  | members => exact ⟨by simp [perform, answer, setMembers_holds h, Reply.ofRead], h⟩
  | card => exact ⟨by simp [perform, answer, setLen_holds h, Reply.ofRead], h⟩
  | compact => exact ⟨rfl, compactIndexedSet_holds h⟩

theorem history_holds {cs : List Command} (h : Holds cell S) (hcareful : CarefulHistory cell S cs) :
    (history perform cell cs).1 = (history answer S cs).1 ∧
      Holds (history perform cell cs).2 (history answer S cs).2 := by
  induction cs generalizing cell S with
  | nil => exact ⟨rfl, h⟩
  | cons c cs ih =>
    obtain ⟨hreply, hholds⟩ := perform_agrees h hcareful.1
    obtain ⟨hreplies, hfinal⟩ := ih hholds hcareful.2
    exact ⟨by simp only [history, hreply, hreplies], hfinal⟩

/-- Every reply of a careful history, and what the key holds in the end, are those of a plain finite
set, whatever forms the key has gone through. -/
theorem history_agrees (cs : List Command) (hcareful : CarefulHistory none ∅ cs) :
    (history perform none cs).1 = (history answer ∅ cs).1 ∧
      setMembers (history perform none cs).2 = some (history answer ∅ cs).2.sort := by
  obtain ⟨hreplies, hfinal⟩ := history_holds (show Holds none ∅ from rfl) hcareful
  exact ⟨hreplies, setMembers_holds hfinal⟩

/-- From `ST1` to `SS1`, a single member, the table `SS4` and back to `SS1`. -/
def throughForms : List Command :=
  [.add [ascii "aaaa", ascii "aaab"], .addEach [ascii "b", ascii "b", ascii "cc"],
    .remove [ascii "aaaa", ascii "aaab", ascii "x", ascii "cc"], .members,
    .add ((range 31).map fun i => [UInt8.ofNat i, 0]), .contains [7, 0], .remove [[7, 0]], .card]

theorem history_agrees_throughForms :
    CarefulHistory none ∅ throughForms ∧
      (history perform none throughForms).1 = (history answer ∅ throughForms).1 :=
  have hcareful : CarefulHistory none ∅ throughForms := by decide +kernel
  ⟨hcareful, (history_agrees throughForms hcareful).1⟩

/-- A member of another width, added alone to a front-coded entry, is lost. -/
def loneMember : List Command :=
  [.add [ascii "aaaa", ascii "aaab"], .add [ascii "b"], .contains (ascii "b")]

/-- A sole member of fifteen bytes that starts with `SS4` cannot be read any more. -/
def maskedMember : List Command :=
  [.add [indexedSetHeader ++ List.replicate 12 0], .card]

theorem history_diverges :
    ((history perform none loneMember).1 = [.count 2, .count 0, .flag false] ∧
      (history answer ∅ loneMember).1 = [.count 2, .count 1, .flag true]) ∧
    ((history perform none maskedMember).1 = [.count 1, .error .damaged] ∧
      (history answer ∅ maskedMember).1 = [.count 1, .count 1]) := by
  decide +kernel

end Sets
end SnugKV
