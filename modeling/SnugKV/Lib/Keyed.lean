import Mathlib.Data.List.Nodup
import Mathlib.Data.List.Basic
import Mathlib.Tactic

/-!
# Keyed — lists of records with a key each, and changes to them

A list of records in which no key occurs twice is changed record by record: a record is replaced
or put at the end, or removed.

* `change`, `changes` — one change, and a list of them with distinct keys;
* `Evolves` — the records of a list kept in their order, some gone, new ones at the end;
* `patch_eq` — the changes and removals that lead from a list to one it evolves into do so.
-/

namespace SnugKV
namespace Lib

open List

universe u v

section Keyed

variable {α : Type u} {κ : Type v} [DecidableEq κ] (key : α → κ)

/-- The record with key `k` through `f`, at the end when there is none. -/
def change (l : List α) (k : κ) (f : Option α → α) : List α :=
  match l.findIdx? fun a => key a = k with
  | some i => l.modify i fun a => f (some a)
  | none => l ++ [f none]

/-- Without the first record with key `k`. -/
def removeKey (l : List α) (k : κ) : List α :=
  match l.findIdx? fun a => key a = k with
  | some i => l.eraseIdx i
  | none => l

def changes (l : List α) (ops : List (κ × (Option α → α))) : List α :=
  ops.foldl (fun l op => change key l op.1 op.2) l

def removeKeys (l : List α) (ks : List κ) : List α := ks.foldl (removeKey key) l

variable {key}

variable {l l' : List α} {ops : List (κ × (Option α → α))}

variable {k : κ}

theorem findIdx?_key_eq_none : (l.findIdx? fun a => decide (key a = k)) = none ↔ k ∉ l.map key := by
  simp [findIdx?_eq_none_iff]

theorem split_of_findIdx? {i : Nat} (hnodup : (l.map key).Nodup)
    (h : (l.findIdx? fun a => decide (key a = k)) = some i) :
    ∃ xs a ys, l = xs ++ a :: ys ∧ xs.length = i ∧ key a = k ∧
      (∀ x ∈ xs, key x ≠ k) ∧ ∀ y ∈ ys, key y ≠ k := by
  obtain ⟨hi, hkey, hfirst⟩ := findIdx?_eq_some_iff_getElem.1 h
  have hkey' : key l[i] = k := by simpa using hkey
  have hsplit : l = l.take i ++ l[i] :: l.drop (i + 1) := by
    rw [cons_getElem_drop_succ, take_append_drop]
  refine ⟨l.take i, l[i], l.drop (i + 1), hsplit, ?_, hkey', ?_, ?_⟩
  · rw [length_take]
    omega
  · intro x hx
    obtain ⟨j, hj, rfl⟩ := getElem_of_mem hx
    rw [length_take] at hj
    simpa using hfirst j (by omega)
  · intro y hy heq
    rw [hsplit, map_append, map_cons] at hnodup
    have hnot := (nodup_cons.1 (nodup_append.1 hnodup).2.1).1
    exact hnot (hkey' ▸ heq ▸ mem_map_of_mem hy)

theorem map_ite_of_ne {g : α → α} (h : ∀ x ∈ l, key x ≠ k) :
    l.map (fun a => if key a = k then g a else a) = l := by
  conv_rhs => rw [← map_id l]
  exact map_congr_left fun x hx => if_neg (h x hx)

section

variable (hnodup : (l.map key).Nodup)

include hnodup

theorem change_eq {f : Option α → α} : change key l k f =
      l.map (fun a => if key a = k then f (some a) else a) ++
        if k ∈ l.map key then [] else [f none] := by
  unfold change
  split
  · next i hi =>
      obtain ⟨xs, a, ys, rfl, rfl, rfl, hxs, hys⟩ := split_of_findIdx? hnodup hi
      rw [if_pos (by simp), append_nil, map_append, map_cons, if_pos rfl,
        map_ite_of_ne hxs, map_ite_of_ne hys, modify_eq_take_cons_drop (by simp)]
      simp
  · next hnone =>
      have hnot := findIdx?_key_eq_none.1 hnone
      rw [if_neg hnot, map_ite_of_ne]
      intro x hx heq
      exact hnot (heq ▸ mem_map_of_mem hx)

theorem removeKey_eq : removeKey key l k = l.filter fun a => key a ≠ k := by
  unfold removeKey
  split
  · next i hi =>
      obtain ⟨xs, a, ys, rfl, rfl, rfl, hxs, hys⟩ := split_of_findIdx? hnodup hi
      rw [eraseIdx_append_of_length_le (le_refl _), Nat.sub_self, eraseIdx_cons_zero,
        filter_append, filter_cons_of_neg (by simp),
        filter_eq_self.2 (by simpa using hxs), filter_eq_self.2 (by simpa using hys)]
  · next hnone =>
      have hnot := findIdx?_key_eq_none.1 hnone
      refine (filter_eq_self.2 fun x hx => ?_).symm
      simp only [decide_eq_true_eq]
      exact fun heq => hnot (heq ▸ mem_map_of_mem hx)

theorem removeKeys_eq {ks : List κ} : removeKeys key l ks = l.filter fun a => key a ∉ ks := by
  induction ks generalizing l with
  | nil => simp [removeKeys]
  | cons k ks ih =>
    have hsub : ((l.filter fun a => key a ≠ k).map key).Nodup :=
      hnodup.sublist (filter_sublist.map key)
    rw [removeKeys, foldl_cons, removeKey_eq hnodup]
    refine (ih hsub).trans ?_
    rw [filter_filter]
    simp [Bool.and_comm]

end

/-- A change keeps the key it is for. -/
def KeepsKey (key : α → κ) (op : κ × (Option α → α)) : Prop :=
  key (op.2 none) = op.1 ∧ ∀ a, key a = op.1 → key (op.2 (some a)) = op.1

/-- What a list of changes makes of a record. -/
def changed (key : α → κ) (ops : List (κ × (Option α → α))) (a : α) : α :=
  match ops.find? fun op => op.1 = key a with
  | some op => op.2 (some a)
  | none => a

theorem changed_eq_self {a : α} (h : key a ∉ ops.map Prod.fst) : changed key ops a = a := by
  have hnone : (ops.find? fun op => decide (op.1 = key a)) = none := by
    refine find?_eq_none.2 fun op hop => ?_
    simp only [decide_eq_true_eq]
    exact fun heq => h (heq ▸ mem_map_of_mem hop)
  simp only [changed, hnone]

theorem changed_cons {op : κ × (Option α → α)} {a : α} :
    changed key (op :: ops) a = if op.1 = key a then op.2 (some a) else changed key ops a := by
  unfold changed
  by_cases h : op.1 = key a
  · simp [h]
  · simp [h]

theorem key_changed (hkeys : ∀ op ∈ ops, KeepsKey key op) (a : α) :
    key (changed key ops a) = key a := by
  induction ops with
  | nil => rfl
  | cons op ops ih =>
    rw [changed_cons]
    split_ifs with h
    · rw [(hkeys op (mem_cons_self ..)).2 a h.symm, h]
    · exact ih fun op' hop => hkeys op' (mem_cons_of_mem _ hop)

section

variable (hnodup : (l.map key).Nodup)

include hnodup

theorem changes_eq (hops : (ops.map Prod.fst).Nodup)
    (hkeys : ∀ op ∈ ops, KeepsKey key op) : changes key l ops =
      l.map (changed key ops) ++
        (ops.filter fun op => op.1 ∉ l.map key).map fun op => op.2 none := by
  induction ops generalizing l with
  | nil =>
    have hid : l.map (changed key []) = l :=
      (map_congr_left fun a _ => changed_eq_self (by simp)).trans (map_id l)
    simp [changes, hid]
  | cons op ops ih =>
    obtain ⟨hhead, htail⟩ := nodup_cons.1 hops
    have hop := hkeys op (mem_cons_self ..)
    have hrest : ∀ op' ∈ ops, KeepsKey key op' := fun op' h => hkeys op' (mem_cons_of_mem _ h)
    have hmapkey : (l.map fun a => if key a = op.1 then op.2 (some a) else a).map key =
        l.map key := by
      rw [map_map]
      refine map_congr_left fun a _ => ?_
      simp only [Function.comp_apply]
      split_ifs with h
      · rw [hop.2 a h, h]
      · rfl
    -- the later changes leave the record changed first alone
    have hsame : ∀ a, changed key ops (if key a = op.1 then op.2 (some a) else a) =
        changed key (op :: ops) a := by
      intro a
      rw [changed_cons]
      by_cases h : key a = op.1
      · rw [if_pos h, if_pos h.symm, changed_eq_self]
        rw [hop.2 a h]
        exact hhead
      · rw [if_neg h, if_neg fun h' => h h'.symm]
    rw [changes, foldl_cons, change_eq hnodup]
    by_cases hmem : op.1 ∈ l.map key
    · rw [if_pos hmem, append_nil]
      refine (ih (by rw [hmapkey]; exact hnodup) htail hrest).trans ?_
      rw [hmapkey, map_map, filter_cons_of_neg (by simpa using hmem)]
      congr 1
      exact map_congr_left fun a _ => hsame a
    · rw [if_neg hmem]
      have hkeys' : ((l.map fun a => if key a = op.1 then op.2 (some a) else a) ++
          [op.2 none]).map key = l.map key ++ [op.1] := by
        rw [map_append, hmapkey, map_singleton, hop.1]
      have hfresh : changed key ops (op.2 none) = op.2 none :=
        changed_eq_self (by rw [hop.1]; exact hhead)
      refine (ih ?_ htail hrest).trans ?_
      · rw [hkeys']
        exact nodup_append.2 ⟨hnodup, by simp, by
          intro x hx y hy heq
          rw [mem_singleton.1 hy] at heq
          exact hmem (heq ▸ hx)⟩
      · rw [hkeys', map_append, map_map, map_singleton, hfresh,
          filter_cons_of_pos (by simpa using hmem), map_cons, append_assoc,
          singleton_append]
        congr 1
        · exact map_congr_left fun a _ => hsame a
        · congr 2
          refine filter_congr fun op' hop' => ?_
          have hne : op'.1 ≠ op.1 := fun heq => hhead (heq ▸ mem_map_of_mem hop')
          simp [hne]

theorem map_key_changes (hops : (ops.map Prod.fst).Nodup)
    (hkeys : ∀ op ∈ ops, KeepsKey key op) : (changes key l ops).map key =
      l.map key ++ (ops.map Prod.fst).filter fun k => k ∉ l.map key := by
  rw [changes_eq hnodup hops hkeys, map_append, map_map, map_map, filter_map]
  congr 1
  · exact map_congr_left fun a _ => key_changed hkeys a
  · exact map_congr_left fun op hop => (hkeys op (mem_of_mem_filter hop)).1

theorem nodup_changes (hops : (ops.map Prod.fst).Nodup)
    (hkeys : ∀ op ∈ ops, KeepsKey key op) : ((changes key l ops).map key).Nodup := by
  rw [map_key_changes hnodup hops hkeys]
  refine nodup_append.2 ⟨hnodup, hops.sublist filter_sublist, ?_⟩
  rintro x hx y hy rfl
  have hnot : x ∉ l.map key := by simpa using (mem_filter.1 hy).2
  exact hnot hx

end

/-! ## Evolution and patches -/

theorem eq_of_sublist {β : Type v} {s t l : List β} (hs : s.Sublist l)
    (ht : t.Sublist l) (hnodup : l.Nodup) (h : ∀ b ∈ l, b ∈ s ↔ b ∈ t) : s = t := by
  refine (hnodup.perm_iff_eq_of_sublist hs ht).1 ?_
  refine (perm_ext_iff_of_nodup (hnodup.sublist hs) (hnodup.sublist ht)).2 fun b => ?_
  exact ⟨fun hb => (h b (hs.subset hb)).1 hb, fun hb => (h b (ht.subset hb)).2 hb⟩

omit [DecidableEq κ] in
theorem eq_of_map_key_eq {xs ys : List α} (hnodup : (l.map key).Nodup) (hx : ∀ x ∈ xs, x ∈ l)
    (hy : ∀ y ∈ ys, y ∈ l) (h : xs.map key = ys.map key) : xs = ys := by
  induction xs generalizing ys with
  | nil => exact (map_eq_nil_iff.1 h.symm).symm
  | cons x xs ih =>
    cases ys with
    | nil => simp at h
    | cons y ys =>
      simp only [map_cons, cons.injEq] at h
      rw [inj_on_of_nodup_map hnodup (hx x (by simp)) (hy y (by simp)) h.1,
        ih (fun a ha => hx a (mem_cons_of_mem _ ha)) (fun a ha => hy a (mem_cons_of_mem _ ha)) h.2]

/-- `l'` has some of the records of `l` in their order, changed perhaps, and new ones behind. -/
def Evolves (key : α → κ) (l l' : List α) : Prop :=
  ∃ kept fresh, l' = kept ++ fresh ∧ (kept.map key).Sublist (l.map key) ∧
    ∀ a ∈ fresh, key a ∉ l.map key

omit [DecidableEq κ] in
theorem evolves_iff : Evolves key l l' ↔ ∃ ks fs, l'.map key = ks ++ fs ∧ ks.Sublist (l.map key) ∧
      ∀ k ∈ fs, k ∉ l.map key := by
  constructor
  · rintro ⟨kept, fresh, rfl, hkept, hfresh⟩
    refine ⟨kept.map key, fresh.map key, map_append, hkept, ?_⟩
    intro k hk
    obtain ⟨a, ha, rfl⟩ := mem_map.1 hk
    exact hfresh a ha
  · rintro ⟨ks, fs, hsplit, hkept, hfresh⟩
    obtain ⟨kept, fresh, rfl, rfl, rfl⟩ := map_eq_append_iff.1 hsplit
    exact ⟨kept, fresh, rfl, hkept, fun a ha => hfresh _ (mem_map_of_mem ha)⟩

omit [DecidableEq κ] in
theorem Evolves.congr {l'' : List α} (h : Evolves key l l') (hkeys : l''.map key = l'.map key) :
    Evolves key l l'' := by
  rw [evolves_iff] at h ⊢
  rwa [hkeys]

omit [DecidableEq κ] in
theorem evolves_of_sublist (h : (l'.map key).Sublist (l.map key)) :
    Evolves key l l' := ⟨l', [], by simp, h, by simp⟩

omit [DecidableEq κ] in
theorem evolves_of_keys_eq (h : l'.map key = l.map key) : Evolves key l l' :=
  evolves_of_sublist (h ▸ Sublist.refl _)

omit [DecidableEq κ] in
theorem evolves_of_grown (hnodup : (l'.map key).Nodup) (h : l.map key <+: l'.map key) :
    Evolves key l l' := by
  obtain ⟨fs, hfs⟩ := h
  refine evolves_iff.2 ⟨l.map key, fs, hfs.symm, Sublist.refl _, fun k hk hin => ?_⟩
  rw [← hfs] at hnodup
  exact (nodup_append.1 hnodup).2.2 _ hin _ hk rfl

/-- The keys of `xs` that `ys` lacks. -/
def goneKeys (key : α → κ) (xs ys : List α) : List κ :=
  (xs.filter fun a => key a ∉ ys.map key).map key

theorem mem_goneKeys : k ∈ goneKeys key l l' ↔ k ∈ l.map key ∧ k ∉ l'.map key := by
  simp only [goneKeys, mem_map, mem_filter, decide_eq_true_eq]
  constructor
  · rintro ⟨a, ⟨ha, hnot⟩, rfl⟩
    exact ⟨⟨a, ha, rfl⟩, hnot⟩
  · rintro ⟨⟨a, ha, rfl⟩, hnot⟩
    exact ⟨a, ⟨ha, hnot⟩, rfl⟩

/-- The changes and removals lead to the records of `l'`: they leave each of them as it is there and
cover all differences. -/
structure Patch (key : α → κ) (l l' : List α) (ops : List (κ × (Option α → α)))
    (gone : List κ) : Prop where
  keeps : ∀ op ∈ ops, KeepsKey key op
  targets : ∀ op ∈ ops, op.1 ∈ l'.map key
  sets : ∀ op ∈ ops, ∀ a' ∈ l', key a' = op.1 →
    (∀ a ∈ l, key a = op.1 → op.2 (some a) = a') ∧ (op.1 ∉ l.map key → op.2 none = a')
  covers : ∀ a ∈ l, ∀ a' ∈ l', key a = key a' → key a ∉ ops.map Prod.fst → a = a'
  adds : ∀ a' ∈ l', key a' ∉ l.map key → key a' ∈ ops.map Prod.fst
  drops : ∀ a ∈ l, key a ∉ l'.map key → key a ∈ gone
  spares : ∀ k ∈ gone, k ∉ l'.map key

section Patch

variable {gone : List κ}

/-- Some records of `ys` are changed to what they are there, and what is not changed was in `xs`
already: this leads from `xs`, and from `ys` again, to `ys`. -/
theorem Patch.of_diff {xs ys cs : List α} {op : α → κ × (Option α → α)} (hx : (xs.map key).Nodup)
    (hy : (ys.map key).Nodup) (hl : l = xs ∨ l = ys) (hcs : cs ⊆ ys) (hop : ∀ c, (op c).1 = key c)
    (hkeeps : ∀ c, KeepsKey key (op c))
    (hsets : ∀ c ∈ cs, (∀ a ∈ l, key a = key c → (op c).2 (some a) = c) ∧
      (key c ∉ l.map key → (op c).2 none = c))
    (hold : ∀ y ∈ ys, key y ∉ cs.map key → y ∈ xs) :
    Patch key l ys (cs.map op) (goneKeys key xs ys) := by
  have hops : (cs.map op).map Prod.fst = cs.map key := by
    rw [map_map]
    exact map_congr_left fun c _ => hop c
  refine ⟨forall_mem_map.2 fun c _ => hkeeps c,
    forall_mem_map.2 fun c hc => hop c ▸ mem_map_of_mem (hcs hc), ?_, ?_, ?_, ?_,
    fun k hk => (mem_goneKeys.1 hk).2⟩
  · refine forall_mem_map.2 fun c hc a' ha' hkey => ?_
    rw [hop] at hkey ⊢
    obtain rfl : a' = c := inj_on_of_nodup_map hy ha' (hcs hc) hkey
    exact hsets a' hc
  · intro a ha a' ha' hkey hnot
    rw [hops] at hnot
    rcases hl with rfl | rfl
    · exact inj_on_of_nodup_map hx ha (hold a' ha' (hkey ▸ hnot)) hkey
    · exact inj_on_of_nodup_map hy ha ha' hkey
  · intro a' ha' hnot
    rw [hops]
    by_contra hchanged
    rcases hl with rfl | rfl
    · exact hnot (mem_map_of_mem (hold a' ha' hchanged))
    · exact hnot (mem_map_of_mem ha')
  · intro a ha hnot
    rcases hl with rfl | rfl
    · exact mem_goneKeys.2 ⟨mem_map_of_mem ha, hnot⟩
    · exact absurd (mem_map_of_mem ha) hnot

section

variable (h : Patch key l l' ops gone)

include h

/-- A changed record whose key is not removed is the one of `l'`. -/
theorem Patch.mem (hl : (l.map key).Nodup)
    (hops : (ops.map Prod.fst).Nodup) {x : α} (hx : x ∈ changes key l ops) (hkeep : key x ∉ gone) :
    x ∈ l' := by
  rw [changes_eq hl hops h.keeps, mem_append] at hx
  rcases hx with hx | hx
  · obtain ⟨a, ha, rfl⟩ := mem_map.1 hx
    rw [key_changed h.keeps] at hkeep
    have hin : key a ∈ l'.map key := by_contra fun hn => hkeep (h.drops a ha hn)
    obtain ⟨a', ha', hkey⟩ := mem_map.1 hin
    by_cases hop : key a ∈ ops.map Prod.fst
    · unfold changed
      cases hfind : ops.find? fun op => decide (op.1 = key a) with
      | none =>
        obtain ⟨op, hop, hopkey⟩ := mem_map.1 hop
        simpa [hopkey] using find?_eq_none.1 hfind op hop
      | some op =>
        have hopkey : op.1 = key a := by simpa using find?_some hfind
        have hset := (h.sets op (mem_of_find?_eq_some hfind) a' ha' (hkey.trans hopkey.symm)).1
        change op.2 (some a) ∈ l'
        rw [hset a ha hopkey.symm]
        exact ha'
    · rw [changed_eq_self hop, h.covers a ha a' ha' hkey.symm hop]
      exact ha'
  · obtain ⟨op, hop, rfl⟩ := mem_map.1 hx
    obtain ⟨hmem, hnot⟩ := mem_filter.1 hop
    obtain ⟨a', ha', hkey⟩ := mem_map.1 (h.targets op hmem)
    rw [(h.sets op hmem a' ha' hkey).2 (by simpa using hnot)]
    exact ha'

theorem Patch.mem_iff (hl : (l.map key).Nodup)
    (hl' : (l'.map key).Nodup) (hops : (ops.map Prod.fst).Nodup) {x : α} :
    x ∈ changes key l ops ∧ key x ∉ gone ↔ x ∈ l' := by
  refine ⟨fun hx => h.mem hl hops hx.1 hx.2, fun hx => ?_⟩
  have hkeep : key x ∉ gone := fun hg => h.spares _ hg (mem_map_of_mem hx)
  refine ⟨?_, hkeep⟩
  have hchanges := changes_eq hl hops h.keeps
  by_cases hin : key x ∈ l.map key
  · -- the record of that key becomes one of `l'`, so it becomes this one
    obtain ⟨a, ha, hkey⟩ := mem_map.1 hin
    have hmem : changed key ops a ∈ changes key l ops := by
      rw [hchanges]
      exact mem_append_left _ (mem_map_of_mem ha)
    have hkey' : key (changed key ops a) = key x := (key_changed h.keeps a).trans hkey
    have hbecome := h.mem hl hops hmem (hkey'.symm ▸ hkeep)
    exact inj_on_of_nodup_map hl' hbecome hx hkey' ▸ hmem
  · obtain ⟨op, hop, hkey⟩ := mem_map.1 (h.adds x hx hin)
    rw [hchanges, ← (h.sets op hop x hx hkey.symm).2 (hkey ▸ hin)]
    refine mem_append_right _ (mem_map.2 ⟨op, mem_filter.2 ⟨hop, ?_⟩, rfl⟩)
    simpa [hkey] using hin

theorem Patch.changes_filter (hl : (l.map key).Nodup)
    (hops : (ops.map Prod.fst).Nodup) : changes key (l.filter fun a => key a ∉ gone) ops =
      (changes key l ops).filter fun a => key a ∉ gone := by
  have hspare : ∀ op ∈ ops, op.1 ∉ gone := fun op hop hg => h.spares _ hg (h.targets op hop)
  rw [changes_eq (hl.sublist (filter_sublist.map key)) hops h.keeps, changes_eq hl hops h.keeps,
    filter_append, filter_map, filter_map]
  congr 2
  · refine filter_congr fun a _ => ?_
    rw [Function.comp_apply, key_changed h.keeps]
  · rw [filter_filter]
    refine filter_congr fun op hop => ?_
    have hkeep : key (op.2 none) ∉ gone := (h.keeps op hop).1.symm ▸ hspare op hop
    simp only [Function.comp_apply, hkeep, not_false_eq_true, decide_true, Bool.true_and,
      decide_eq_decide, mem_map, mem_filter, decide_eq_true_eq]
    constructor
    · rintro hnot ⟨a, ha, hkey⟩
      exact hnot ⟨a, ⟨ha, hkey.symm ▸ hspare op hop⟩, hkey⟩
    · rintro hnot ⟨a, ⟨ha, -⟩, hkey⟩
      exact hnot ⟨a, ha, hkey⟩

end

theorem patch_eq (hl : (l.map key).Nodup) (hl' : (l'.map key).Nodup) (hev : Evolves key l l')
    (horder : (ops.map Prod.fst).Sublist (l'.map key)) (h : Patch key l l' ops gone) :
    removeKeys key (changes key l ops) gone = l' := by
  have hops : (ops.map Prod.fst).Nodup := hl'.sublist horder
  obtain ⟨ks, fs, hsplit, hks, hfs⟩ := evolves_iff.1 hev
  have hkeys : ∀ k, k ∈ l'.map key ↔ k ∈ ks ∨ k ∈ fs := fun k => by rw [hsplit, mem_append]
  rw [removeKeys_eq (nodup_changes hl hops h.keeps)]
  refine eq_of_map_key_eq hl' (fun x hx => ?_) (fun _ hx => hx) ?_
  · obtain ⟨hx, hkeep⟩ := mem_filter.1 hx
    exact h.mem hl hops hx (by simpa using hkeep)
  · -- the keys that stay, and the new ones
    have hfilter : ((changes key l ops).filter fun a => key a ∉ gone).map key =
        ((changes key l ops).map key).filter fun k => k ∉ gone := by
      rw [filter_map]
      rfl
    rw [hfilter, map_key_changes hl hops h.keeps, filter_append, hsplit]
    congr 1
    · refine eq_of_sublist filter_sublist hks hl fun k hk => ?_
      rw [mem_filter, decide_eq_true_iff]
      constructor
      · rintro ⟨-, hkeep⟩
        obtain ⟨a, ha, rfl⟩ := mem_map.1 hk
        have hin := by_contra fun hn => hkeep (h.drops a ha hn)
        exact ((hkeys _).1 hin).resolve_right fun hf => hfs _ hf hk
      · exact fun hin => ⟨hk, fun hg => h.spares k hg ((hkeys k).2 (.inl hin))⟩
    · have hfresh : fs.Sublist (l'.map key) := hsplit ▸ sublist_append_right ..
      refine eq_of_sublist (filter_sublist.trans (filter_sublist.trans horder)) hfresh hl'
        fun k hk => ?_
      simp only [mem_filter, decide_eq_true_iff]
      constructor
      · rintro ⟨⟨-, hnot⟩, -⟩
        exact ((hkeys k).1 hk).resolve_left fun hin => hnot (hks.subset hin)
      · intro hin
        obtain ⟨a, ha, rfl⟩ := mem_map.1 hk
        exact ⟨⟨h.adds a ha (hfs _ hin), hfs _ hin⟩, fun hg => h.spares _ hg hk⟩

end Patch

end Keyed

/-! ## Records of one key -/

section Related

variable {α : Type u} {κ : Type v} {key : α → κ} {R : α → α → Prop} {l l' : List α}
  {i : Nat} {a b : α}

/-- A record of the first list and one of the second with its key. -/
def Related (key : α → κ) (R : α → α → Prop) (l l' : List α) : Prop :=
  ∀ x ∈ l, ∀ y ∈ l', key x = key y → R x y

theorem related_of_find (hnodup : (l.map key).Nodup)
    (h : ∀ y ∈ l', key y ∈ l.map key → ∃ x ∈ l, key x = key y ∧ R x y) : Related key R l l' := by
  intro x hx y hy hkey
  obtain ⟨x', hx', hkey', hR⟩ := h y hy (hkey ▸ mem_map_of_mem hx)
  rwa [inj_on_of_nodup_map hnodup hx hx' (hkey.trans hkey'.symm)]

variable (hnodup : (l.map key).Nodup) (hrefl : ∀ x, R x x)
include hnodup hrefl

theorem related_of_subset (h : l' ⊆ l) : Related key R l l' :=
  related_of_find hnodup fun y hy _ => ⟨y, h hy, rfl, hrefl y⟩

theorem related_concat (hfresh : key a ∉ l.map key) : Related key R l (l ++ [a]) := by
  refine related_of_find hnodup fun y hy hin => ?_
  rcases mem_append.1 hy with hy | hy
  · exact ⟨y, hy, rfl, hrefl y⟩
  · rw [mem_singleton.1 hy] at hin
    exact absurd hin hfresh

theorem related_set (hi : l[i]? = some a) (hkey : key b = key a) (hR : R a b) :
    Related key R l (l.set i b) := by
  refine related_of_find hnodup fun y hy _ => ?_
  rcases mem_or_eq_of_mem_set hy with hy | rfl
  · exact ⟨y, hy, rfl, hrefl y⟩
  · exact ⟨a, mem_of_getElem? hi, hkey.symm, hR⟩

end Related

end Lib
end SnugKV
