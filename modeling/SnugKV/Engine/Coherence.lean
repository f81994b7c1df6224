import SnugKV.Engine.Shard

/-!
# Coherence — ids, sidecars and HOT hashes of a shard

What one operation does to the arrays of `Engine.Shard`, and from that what a whole run keeps.

* `Coherent` — every id in use is in range of every allocated array, and the HOT hashes stand
  exactly at the entries of the keys they were made for;
* `Fits` — the operation does not append an entry while `hotHashes` is allocated.

`insertEntry` lets `metas.slots` grow with `entries` but not `metas.hotHashes`, which only
`ensureHotHashSlots` extends.  So a new key whose entry is appended after some hash was promoted
has an id beyond `hotHashes`, and deleting it indexes out of range.
-/

namespace SnugKV
namespace Engine
namespace Shard

open Lib List Slice

variable {M H : Type}

/-! ## The index -/

variable {sh : Shard M H} {key : Bytes} {id : Nat}

theorem find_eq_some_of_mem (hkeys : (sh.data.map Prod.fst).Nodup) (h : (key, id) ∈ sh.data) :
    sh.find key = some id := by
  obtain ⟨p, hp⟩ := Option.isSome_iff_exists.1
    (find?_isSome.2 ⟨_, h, by simp⟩ : (sh.data.find? fun p => decide (p.1 = key)).isSome = true)
  have hkey : p.1 = key := by simpa using find?_some hp
  rw [find, hp, inj_on_of_nodup_map hkeys (mem_of_find?_eq_some hp) h hkey]
  rfl

theorem mem_of_find (h : sh.find key = some id) : (key, id) ∈ sh.data := by
  rcases Option.map_eq_some_iff.1 h with ⟨p, hp, rfl⟩
  have hkey : p.1 = key := by simpa using find?_some hp
  rw [← hkey]
  exact mem_of_find?_eq_some hp

theorem not_mem_of_find_none (h : sh.find key = none) : key ∉ sh.data.map Prod.fst := by
  intro hmem
  rcases mem_map.1 hmem with ⟨p, hp, rfl⟩
  have hnone := find?_eq_none.1 (Option.map_eq_none_iff.1 h) p hp
  simp at hnone

theorem perm_cons_filter {data : List (Bytes × Nat)} (hkeys : (data.map Prod.fst).Nodup)
    (h : (key, id) ∈ data) :
    data.Perm ((key, id) :: data.filter (fun p => decide (p.1 ≠ key))) := by
  obtain ⟨xs, ys, rfl⟩ := append_of_mem h
  rw [map_append, map_cons, nodup_middle, nodup_cons, ← map_append] at hkeys
  have hkeep : (xs ++ ys).filter (fun p => decide (p.1 ≠ key)) = xs ++ ys := by
    refine filter_eq_self.2 fun q hq => ?_
    simpa using fun heq => hkeys.1 (mem_map.2 ⟨q, hq, heq⟩)
  rw [filter_append, filter_cons_of_neg (by simp), ← filter_append, hkeep]
  exact perm_middle

/-! ## One array at a time -/

/-- The slots are as long as the entries, where they are allocated. -/
def Aligned (sh : Shard M H) : Prop :=
  ∀ sc, sh.metas = some sc → sc.slots.len = sh.entries.len

theorem setMeta_spec (hal : sh.Aligned) (hid : id < sh.entries.len) (m : Option M) :
    ∃ sh', sh.setMeta id m = some sh' ∧ sh'.data = sh.data ∧ sh'.freeIDs = sh.freeIDs ∧
      sh'.entries = sh.entries ∧ sh'.hotHashes = sh.hotHashes ∧ sh'.Aligned := by
  obtain ⟨base, hbase, hdata, hfree, hentries, hhot, hbal⟩ :
      ∃ base, (if m.isSome then sh.ensureMetaSlots else sh) = base ∧ base.data = sh.data ∧
        base.freeIDs = sh.freeIDs ∧ base.entries = sh.entries ∧
        base.hotHashes = sh.hotHashes ∧ base.Aligned := by
    refine ⟨_, rfl, ?_⟩
    unfold ensureMetaSlots
    cases hm : sh.metas with
    | some sc =>
      simpa using hal
    | none =>
      split_ifs
      · refine ⟨rfl, rfl, rfl, by simp [hotHashes, hm], ?_⟩
        intro sc hsc
        cases hsc
        simp
      · exact ⟨rfl, rfl, rfl, rfl, hal⟩
  simp only [setMeta, hbase]
  cases hm : base.metas with
  | none => exact ⟨base, rfl, hdata, hfree, hentries, hhot, hbal⟩
  | some sc =>
    have hlt : id < sc.slots.len := by rw [hbal sc hm, hentries]; exact hid
    rcases set?_of_lt hlt m with ⟨slots, hslots⟩
    refine ⟨{ base with metas := some { sc with slots := slots } },
      by simp only [hslots, Option.map_some], hdata, hfree, hentries, ?_, ?_⟩
    · rw [← hhot]
      simp [hotHashes, hm]
    · intro sc' hsc'
      cases hsc'
      exact (len_set? hslots).trans (hbal sc hm)

theorem storeEntry_spec (hal : sh.Aligned) (hid : id < sh.entries.len) (e : SnugValue) :
    ∃ sh', sh.storeEntry id e = some sh' ∧ sh'.data = sh.data ∧ sh'.freeIDs = sh.freeIDs ∧
      sh'.hotHashes = sh.hotHashes ∧ sh'.Aligned ∧ sh'.entries.len = sh.entries.len ∧
      ∀ j, sh'.entries.get? j = if j = id then some e else sh.entries.get? j := by
  rcases set?_of_lt hid e with ⟨entries, hentries⟩
  have hlen := len_set? hentries
  exact ⟨{ sh with entries := entries }, by simp only [storeEntry, hentries, Option.map_some],
    rfl, rfl, rfl, fun sc hsc => (hal sc hsc).trans hlen.symm, hlen, get?_set? hentries⟩

theorem appendEntry_spec (hal : sh.Aligned) (e : SnugValue) :
    (sh.appendEntry e).data = sh.data ∧ (sh.appendEntry e).freeIDs = sh.freeIDs ∧
      (sh.appendEntry e).hotHashes = sh.hotHashes ∧ (sh.appendEntry e).Aligned ∧
      (sh.appendEntry e).entries.len = sh.entries.len + 1 ∧
      ∀ j, (sh.appendEntry e).entries.get? j =
        if j = sh.entries.len then some e else sh.entries.get? j := by
  obtain ⟨base, hbase, hdata, hfree, hhot, hbal, hlen, hget⟩ :
      ∃ base, (if sh.entries.len = sh.entries.cap then
          { sh with entries := sh.entries.resize sh.entries.len (sh.entryCapacityFor 1) {}
            }.growMetaSlots (sh.entryCapacityFor 1)
        else sh) = base ∧ base.data = sh.data ∧ base.freeIDs = sh.freeIDs ∧
        base.hotHashes = sh.hotHashes ∧ base.Aligned ∧ base.entries.len = sh.entries.len ∧
        ∀ j, base.entries.get? j = sh.entries.get? j := by
    refine ⟨_, rfl, ?_⟩
    split_ifs
    · have hget : ∀ j, (sh.entries.resize sh.entries.len (sh.entryCapacityFor 1) {}).get? j =
          sh.entries.get? j := by
        intro j
        rw [get?_resize (le_refl _)]
        split_ifs with h
        · rfl
        · exact (get?_eq_none.2 (Nat.le_of_not_lt h)).symm
      unfold growMetaSlots
      cases hm : sh.metas with
      | none =>
        refine ⟨rfl, rfl, by simp [hotHashes, hm], ?_, by simp, by simpa using hget⟩
        intro sc hsc
        cases hsc
      | some sc =>
        have hsc := hal sc hm
        simp only
        split_ifs
        · refine ⟨rfl, rfl, by simp [hotHashes, hm], ?_, by simp, hget⟩
          intro sc' hsc'
          cases hsc'
          simpa using hsc
        · refine ⟨rfl, rfl, by simp [hotHashes, hm], ?_, by simp, hget⟩
          intro sc' hsc'
          cases hsc'
          simpa using hsc
    · exact ⟨rfl, rfl, rfl, hal, rfl, fun _ => rfl⟩
  simp only [appendEntry, hbase]
  refine ⟨hdata, hfree, ?_, ?_, by simp [hlen], ?_⟩
  · rw [← hhot]
    cases hm : base.metas <;> simp [hotHashes, hm]
  · intro sc hsc
    rcases Option.map_eq_some_iff.1 hsc with ⟨old, hold, rfl⟩
    simp [hbal old hold]
  · intro j
    rw [get?_push, hlen, hget]

theorem storeHotHash_spec (hcover : ∀ hot, sh.hotHashes = some hot → id < hot.len)
    (h : Option (Owned H)) (halloc : h.isSome → sh.hotHashes.isSome) :
    ∃ sh', sh.storeHotHash id h = some sh' ∧ sh'.data = sh.data ∧ sh'.freeIDs = sh.freeIDs ∧
      sh'.entries = sh.entries ∧ (sh.Aligned → sh'.Aligned) ∧
      sh'.hotHashes.map len = sh.hotHashes.map len ∧
      ∀ j, sh'.hotHashByID j = if j = id then h else sh.hotHashByID j := by
  have hunalloc : sh.hotHashes = none →
      ∀ j, sh.hotHashByID j = if j = id then h else sh.hotHashByID j := by
    intro hnone j
    have hh : h = none := by
      cases h with
      | none => rfl
      | some h => simp [hnone] at halloc
    simp [hotHashByID, hnone, hh]
  unfold storeHotHash
  cases hm : sh.metas with
  | none =>
    exact ⟨sh, rfl, rfl, rfl, rfl, fun hal => hal, rfl, hunalloc (by simp [hotHashes, hm])⟩
  | some sc =>
    cases hhot : sc.hotHashes with
    | none =>
      exact ⟨sh, by simp only [hhot], rfl, rfl, rfl, fun hal => hal, rfl,
        hunalloc (by simp [hotHashes, hm, hhot])⟩
    | some hot =>
      have hsh : sh.hotHashes = some hot := by simp [hotHashes, hm, hhot]
      rcases set?_of_lt (hcover hot hsh) h with ⟨next, hnext⟩
      refine ⟨{ sh with metas := some { sc with hotHashes := some next } },
        by simp only [hhot, hnext, Option.map_some], rfl, rfl, rfl, ?_, ?_, ?_⟩
      · intro hal sc' hsc'
        cases hsc'
        exact hal sc hm
      · rw [hsh]
        simp [hotHashes, len_set? hnext]
      · intro j
        have hj := get?_set? hnext j
        simp only [hotHashByID, hsh]
        simp only [hotHashes, Option.bind_some, hj]
        split_ifs <;> rfl

theorem ensureHotHashSlots_spec (hal : sh.Aligned)
    (hle : ∀ hot, sh.hotHashes = some hot → hot.len ≤ sh.entries.len) :
    sh.ensureHotHashSlots.data = sh.data ∧ sh.ensureHotHashSlots.freeIDs = sh.freeIDs ∧
      sh.ensureHotHashSlots.entries = sh.entries ∧ sh.ensureHotHashSlots.Aligned ∧
      (∃ hot, sh.ensureHotHashSlots.hotHashes = some hot ∧ hot.len = sh.entries.len) ∧
      ∀ j, sh.ensureHotHashSlots.hotHashByID j = sh.hotHashByID j := by
  refine ⟨rfl, rfl, rfl, ?_, ?_⟩
  · intro sc hsc
    cases hsc
    change (coveringSidecar sh.entries _).slots.len = sh.entries.len
    simp only [coveringSidecar]
    split_ifs with hlt
    · simp
    · cases hm : sh.metas with
      | none => simp
      | some old => simpa using hal old hm
  · cases hhot : sh.hotHashes with
    | none =>
      have hnone : (sh.metas.getD ⟨Slice.empty.resize sh.entries.len sh.entries.cap none,
          none⟩).hotHashes = none := by
        cases hm : sh.metas with
        | none => rfl
        | some sc => simpa [hotHashes, hm] using hhot
      refine ⟨⟨Slice.empty.resize sh.entries.len sh.entries.cap none, ?_, by simp⟩, ?_⟩
      · simp [hotHashes, ensureHotHashSlots, coveringSidecar, hnone]
      · intro j
        simp only [hotHashByID, hhot]
        simp only [hotHashes, ensureHotHashSlots, coveringSidecar, hnone, Option.bind_some,
          Slice.get?_fresh]
        split_ifs <;> rfl
    | some hot =>
      rcases Option.bind_eq_some_iff.1 hhot with ⟨sc, hm, hsc⟩
      have hlen := hle hot hhot
      have hnext : sh.ensureHotHashSlots.hotHashes = some
          (if hot.len < sh.entries.len || hot.cap < sh.entries.cap then
            hot.resize sh.entries.len sh.entries.cap none else hot) := by
        simp [hotHashes, ensureHotHashSlots, coveringSidecar, hm, hsc]
      refine ⟨⟨_, hnext, ?_⟩, ?_⟩
      · split_ifs with hgrow
        · simp
        · simp at hgrow
          omega
      · intro j
        simp only [hotHashByID, hhot, hnext, Option.bind_some]
        split_ifs
        · rw [Slice.get?_resize hlen]
          split_ifs with hj hj'
          · rfl
          · rw [Slice.get?_eq_none.2 (Nat.le_of_not_lt hj)]
            rfl
          · rw [Slice.get?_eq_none.2 (Nat.le_of_not_lt hj)]
        · rfl

/-! ## The invariant -/

/-- What every operation keeps as long as no entry is appended next to allocated HOT slots. -/
structure Sound (sh : Shard M H) : Prop where
  keys : (sh.data.map Prod.fst).Nodup
  /-- Ids in use and ids on the free list are all different. -/
  ids : (sh.data.map Prod.snd ++ sh.freeIDs).Nodup
  bound : ∀ id ∈ sh.data.map Prod.snd ++ sh.freeIDs, id < sh.entries.len
  aligned : sh.Aligned
  hots : ∀ hot, sh.hotHashes = some hot → hot.len = sh.entries.len
  owner : ∀ id h, sh.hotHashByID id = some h →
    (h.owner, id) ∈ sh.data ∧ ∃ e, sh.entries.get? id = some e ∧ e.isHotHash = true
  attached : ∀ key id e, (key, id) ∈ sh.data → sh.entries.get? id = some e →
    e.isHotHash = true → ∃ h, sh.hotHashByID id = some h ∧ h.owner = key

theorem sound_empty : (empty : Shard M H).Sound where
  keys := nodup_nil
  ids := nodup_nil
  bound := by simp [empty]
  aligned := nofun
  hots := nofun
  owner := fun _ _ hh => nomatch hh
  attached := fun _ _ _ hmem => nomatch hmem

namespace Sound

variable {sh sh' : Shard M H}

section

variable (hs : sh.Sound) {key : Bytes}

include hs

theorem live_bound {id : Nat} (h : (key, id) ∈ sh.data) :
    id < sh.entries.len :=
  hs.bound id (mem_append_left _ (mem_map.2 ⟨_, h, rfl⟩))

theorem hot_bound {id : Nat} (h : (key, id) ∈ sh.data) :
    ∀ hot, sh.hotHashes = some hot → id < hot.len :=
  fun hot hhot => (hs.hots hot hhot).symm ▸ hs.live_bound h

theorem key_unique {k₁ k₂ : Bytes} {id : Nat} (h₁ : (k₁, id) ∈ sh.data)
    (h₂ : (k₂, id) ∈ sh.data) : k₁ = k₂ := by
  have hnd : (sh.data.map Prod.snd).Nodup := (nodup_append.1 hs.ids).1
  exact congrArg Prod.fst (inj_on_of_nodup_map hnd h₁ h₂ rfl)

/-- An entry and its HOT slot change together, under the same key. -/
theorem write {id : Nat} (hmem : (key, id) ∈ sh.data)
    {e : SnugValue} {h : Option (Owned H)} (hkind : e.isHotHash = h.isSome)
    (howner : ∀ o, h = some o → o.owner = key)
    (hdata : sh'.data = sh.data) (hfree : sh'.freeIDs = sh.freeIDs)
    (hlen : sh'.entries.len = sh.entries.len) (hal : sh'.Aligned)
    (hhots : ∀ hot, sh'.hotHashes = some hot → hot.len = sh.entries.len)
    (hget : ∀ j, sh'.entries.get? j = if j = id then some e else sh.entries.get? j)
    (hhot : ∀ j, sh'.hotHashByID j = if j = id then h else sh.hotHashByID j) : sh'.Sound where
  keys := by rw [hdata]; exact hs.keys
  ids := by rw [hdata, hfree]; exact hs.ids
  bound := by rw [hdata, hfree, hlen]; exact hs.bound
  aligned := hal
  hots := by rw [hlen]; exact hhots
  owner := by
    intro j o ho
    rw [hhot] at ho
    rw [hget, hdata]
    by_cases hj : j = id
    · simp only [hj, if_true] at ho ⊢
      rw [howner o ho]
      exact ⟨hmem, e, rfl, by rw [hkind, ho]; rfl⟩
    · simp only [hj, if_false] at ho ⊢
      exact hs.owner j o ho
  attached := by
    intro k j e' hk he' hhe'
    rw [hget] at he'
    rw [hdata] at hk
    rw [hhot]
    by_cases hj : j = id
    · subst hj
      simp only [if_true, Option.some.injEq] at he' ⊢
      subst he'
      rw [hkind] at hhe'
      rcases Option.isSome_iff_exists.1 hhe' with ⟨o, ho⟩
      exact ⟨o, ho, (howner o ho).trans (hs.key_unique hmem hk)⟩
    · simp only [hj, if_false] at he' ⊢
      exact hs.attached k j e' hk he' hhe'

theorem insert (hkey : key ∉ sh.data.map Prod.fst) {id : Nat}
    {e : SnugValue} (hcold : e.isHotHash = false)
    (hdata : sh'.data = sh.data ++ [(key, id)])
    (hids : (sh.data.map Prod.snd ++ id :: sh'.freeIDs).Nodup)
    (hbound : ∀ j ∈ sh.data.map Prod.snd ++ id :: sh'.freeIDs, j < sh'.entries.len)
    (hal : sh'.Aligned) (hhots : ∀ hot, sh'.hotHashes = some hot → hot.len = sh'.entries.len)
    (hget : ∀ j, sh'.entries.get? j = if j = id then some e else sh.entries.get? j)
    (hhot : ∀ j, sh'.hotHashByID j = sh.hotHashByID j) : sh'.Sound where
  keys := by
    rw [hdata, map_append, nodup_append]
    refine ⟨hs.keys, by simp, ?_⟩
    intro a ha b hb
    simp only [map_cons, map_nil, mem_singleton] at hb
    rintro rfl
    exact hkey (hb ▸ ha)
  ids := by simpa [hdata] using hids
  bound := by simpa [hdata] using hbound
  aligned := hal
  hots := hhots
  owner := by
    intro j h hh
    rw [hhot] at hh
    rcases hs.owner j h hh with ⟨hmem, e', he', hhe'⟩
    refine ⟨by rw [hdata]; exact mem_append_left _ hmem, e', ?_, hhe'⟩
    -- an id in use is not the inserted one
    have hj : j ≠ id := by
      rintro rfl
      have hused : j ∈ sh.data.map Prod.snd := mem_map.2 ⟨_, hmem, rfl⟩
      exact (nodup_append.1 hids).2.2 j hused j (mem_cons_self ..) rfl
    rw [hget, if_neg hj]
    exact he'
  attached := by
    intro k j e' hk he' hhe'
    rw [hget] at he'
    rw [hhot]
    rw [hdata, mem_append, mem_singleton] at hk
    by_cases hj : j = id
    · simp only [hj, if_true, Option.some.injEq] at he'
      rw [← he', hcold] at hhe'
      cases hhe'
    · simp only [hj, if_false] at he'
      rcases hk with hk | hk
      · exact hs.attached k j e' hk he' hhe'
      · cases hk
        exact absurd rfl hj

end

end Sound

/-! ## The operations keep it -/

section Operations

variable {sh : Shard M H}

theorem entryView_of_mem (hs : sh.Sound) {key : Bytes} {id : Nat} (hmem : (key, id) ∈ sh.data) :
    ∃ e m, sh.entries.get? id = some e ∧ sh.entryView id = some (e, m) := by
  have hlt := hs.live_bound hmem
  rcases get?_isSome hlt with ⟨e, he⟩
  cases hm : sh.metas with
  | none => exact ⟨e, none, he, by simp [entryView, he, hm]⟩
  | some sc =>
    rcases get?_isSome (hs.aligned sc hm ▸ hlt) with ⟨m, hslot⟩
    exact ⟨e, m, he, by simp [entryView, he, hm, hslot]⟩

theorem overwrite_spec (hal : sh.Aligned) {id : Nat} (hid : id < sh.entries.len) (e : SnugValue)
    (m : Option M) :
    ∃ sh', (sh.storeEntry id e >>= fun sh => sh.setMeta id m) = some sh' ∧
      sh'.data = sh.data ∧ sh'.freeIDs = sh.freeIDs ∧ sh'.hotHashes = sh.hotHashes ∧
      sh'.Aligned ∧ sh'.entries.len = sh.entries.len ∧
      ∀ j, sh'.entries.get? j = if j = id then some e else sh.entries.get? j := by
  rcases storeEntry_spec hal hid e with ⟨mid, hmid, hdata, hfree, hhot, hmal, hlen, hget⟩
  rcases setMeta_spec hmal (hlen.symm ▸ hid) m with
    ⟨sh', hset, hdata', hfree', hentries', hhot', hal'⟩
  refine ⟨sh', by simp [hmid, hset], hdata'.trans hdata, hfree'.trans hfree, hhot'.trans hhot,
    hal', ?_, ?_⟩
  · rw [hentries', hlen]
  · intro j
    rw [hentries', hget]

theorem hotHashByID_congr {sh' : Shard M H} (h : sh'.hotHashes = sh.hotHashes) (j : Nat) :
    sh'.hotHashByID j = sh.hotHashByID j := by
  rw [hotHashByID, h, hotHashByID]

section

variable (hs : sh.Sound)

include hs

theorem Sound.hots_of_len {sh' : Shard M H}
    (h : sh'.hotHashes.map len = sh.hotHashes.map len) :
    ∀ hot, sh'.hotHashes = some hot → hot.len = sh.entries.len := by
  intro hot hh
  have hsame : sh.hotHashes.map len = some hot.len := by
    rw [← h, hh]
    rfl
  rcases Option.map_eq_some_iff.1 hsame with ⟨hot', hh', heq⟩
  rw [← heq, hs.hots hot' hh']

theorem insertEntry_sound {key : Bytes} (hkey : sh.find key = none)
    {e : SnugValue} (hcold : e.isHotHash = false) (m : Option M)
    (hroom : sh.hotHashes = none ∨ sh.freeIDs ≠ []) :
    ∃ sh', sh.insertEntry key e m = some sh' ∧ sh'.Sound := by
  have hfresh := not_mem_of_find_none hkey
  cases hfree : sh.freeIDs with
  | cons id rest =>
    have hid : id < sh.entries.len :=
      hs.bound id (by rw [hfree]; exact mem_append_right _ (mem_cons_self ..))
    obtain ⟨mid, hmid, hdata, hfree', hhot, hal, hlen, hget⟩ :=
      @overwrite_spec M H { sh with freeIDs := rest } hs.aligned id hid e m
    refine ⟨{ mid with data := mid.data ++ [(key, id)] }, ?_, ?_⟩
    · rcases Option.bind_eq_some_iff.1 hmid with ⟨stored, hstored, hmeta⟩
      simp [insertEntry, hfree, hstored, hmeta]
    · refine @Sound.insert M H sh _ hs key hfresh id e hcold (by simp [hdata]) ?_ ?_ hal ?_ hget
        (hotHashByID_congr hhot)
      · simpa [hfree'] using hfree ▸ hs.ids
      · have hb := hs.bound
        rw [hfree] at hb
        simpa only [hfree', hlen] using hb
      · intro hot hh
        exact (hs.hots hot (hhot ▸ hh)).trans hlen.symm
  | nil =>
    obtain ⟨hdata, hfree', hhot, hal, hlen, hget⟩ := appendEntry_spec hs.aligned e
    rcases setMeta_spec hal (show sh.entries.len < _ by omega) m with
      ⟨mid, hmid, hdata₂, hfree₂, hentries₂, hhot₂, hal₂⟩
    have hhots : sh.hotHashes = none := by simpa [hfree] using hroom
    have hids : ∀ j ∈ sh.data.map Prod.snd, j < sh.entries.len := by
      intro j hj
      exact hs.bound j (mem_append_left _ hj)
    refine ⟨{ mid with data := mid.data ++ [(key, sh.entries.len)] }, ?_, ?_⟩
    · simp [insertEntry, hfree, hmid]
    · refine @Sound.insert M H sh _ hs key hfresh sh.entries.len e hcold
        (by simp [hdata₂, hdata]) ?_ ?_ hal₂ ?_ ?_ (hotHashByID_congr (hhot₂.trans hhot))
      · simp only [hfree₂, hfree', hfree]
        have hnd : (sh.data.map Prod.snd).Nodup := (nodup_append.1 hs.ids).1
        refine nodup_append.2 ⟨hnd, by simp, ?_⟩
        intro a ha b hb
        have := hids a ha
        simp only [mem_singleton] at hb
        omega
      · intro j hj
        simp only [hfree₂, hfree', hfree, mem_append, mem_singleton] at hj
        simp only [hentries₂, hlen]
        rcases hj with hj | hj
        · have := hids j hj
          omega
        · omega
      · intro hot hh
        have : sh.hotHashes = some hot := (hhot₂.trans hhot) ▸ hh
        rw [hhots] at this
        cases this
      · intro j
        simp only [hentries₂, hget]

theorem publish_sound (key : Bytes) (e : PreparedEntry) (m : Option M)
    (hroom : sh.find key = none → sh.hotHashes = none ∨ sh.freeIDs ≠ []) :
    ∃ sh', sh.publish key e m = some sh' ∧ sh'.Sound := by
  cases hfind : sh.find key with
  | none =>
    simpa [publish, set, hfind] using insertEntry_sound hs hfind e.cold m (hroom hfind)
  | some id =>
    have hmem := mem_of_find hfind
    have hid := hs.live_bound hmem
    obtain ⟨old, om, hold, hview⟩ := entryView_of_mem hs hmem
    obtain ⟨mid, hmid, hdata, hfree, hhot, hal, hlen, hget⟩ :=
      overwrite_spec hs.aligned hid e.value m
    have hset : sh.set key e.value m = some mid := by
      simpa [set, hfind] using hmid
    have hkeep := hotHashByID_congr hhot
    by_cases hcase : old.isHotHash = true
    · -- the overwritten HOT hash is detached
      obtain ⟨sh', hsh', hdata', hfree', hentries', hal', hhots', hhot'⟩ :=
        storeHotHash_spec (fun hot hh => hs.hot_bound hmem hot (hhot ▸ hh)) none (by simp)
      refine ⟨sh', ?_, ?_⟩
      · simpa [publish, hfind, hview, hset, hcase, setHotHash] using hsh'
      · refine @Sound.write M H sh sh' hs key id hmem e.value none (by simpa using e.cold)
          (by simp) (hdata'.trans hdata) (hfree'.trans hfree) (by rw [hentries', hlen])
          (hal' hal) ?_ (by simpa [hentries'] using hget) (by simpa [hkeep] using hhot')
        exact hs.hots_of_len (hhots'.trans (congrArg _ hhot))
    · have hnone : sh.hotHashByID id = none := by
        cases hh : sh.hotHashByID id with
        | none => rfl
        | some o =>
          obtain ⟨_, e', he', hhe'⟩ := hs.owner id o hh
          rw [hold] at he'
          cases he'
          exact absurd hhe' hcase
      refine ⟨mid, by simp [publish, hfind, hview, hset, hcase], ?_⟩
      refine @Sound.write M H sh mid hs key id hmem e.value none (by simpa using e.cold)
        (by simp) hdata hfree hlen hal (fun hot hh => hs.hots hot (hhot ▸ hh)) hget ?_
      intro j
      rw [hkeep]
      split_ifs with hj
      · rw [hj, hnone]
      · rfl

theorem delete_sound (key : Bytes) : ∃ sh', sh.delete key = some sh' ∧ sh'.Sound := by
  cases hfind : sh.find key with
  | none => exact ⟨sh, by simp [delete, hfind], hs⟩
  | some id =>
    have hmem := mem_of_find hfind
    have hid := hs.live_bound hmem
    obtain ⟨mid, hmid, hdata, hfree, hhot, hal, hlen, hget⟩ :=
      @overwrite_spec M H { sh with data := sh.data.filter (fun p => decide (p.1 ≠ key)) }
        hs.aligned id hid {} none
    obtain ⟨fin, hfin, hdata', hfree', hentries', hal', hhots', hhot'⟩ :=
      storeHotHash_spec (fun hot hh => hs.hot_bound hmem hot (hhot ▸ hh)) none (by simp)
    have hlenfin : fin.entries.len = sh.entries.len := by rw [hentries', hlen]
    have hhotfin : ∀ j, fin.hotHashByID j = if j = id then none else sh.hotHashByID j := by
      intro j
      rw [hhot', hotHashByID_congr hhot]
      rfl
    have hdatafin : fin.data = sh.data.filter (fun p => decide (p.1 ≠ key)) := hdata'.trans hdata
    -- the id leaves the index and joins the free list
    have hperm : sh.data.Perm
        ((key, id) :: sh.data.filter (fun p => decide (p.1 ≠ key))) :=
      perm_cons_filter hs.keys hmem
    have hidperm : (sh.data.map Prod.snd ++ sh.freeIDs).Perm
        (fin.data.map Prod.snd ++ id :: fin.freeIDs) := by
      rw [hdatafin, hfree', hfree]
      refine ((hperm.map Prod.snd).append_right _).trans ?_
      simpa using (perm_middle).symm
    refine ⟨{ fin with freeIDs := id :: fin.freeIDs }, ?_, ?_⟩
    · rcases Option.bind_eq_some_iff.1 hmid with ⟨stored, hstored, hmeta⟩
      simp only [ne_eq, decide_not] at hstored
      simp [delete, hfind, clearSlot, hstored, hmeta, hfin]
    · refine ⟨?_, hidperm.nodup_iff.1 hs.ids, ?_, hal' hal, ?_, ?_, ?_⟩
      · rw [hdatafin]
        exact hs.keys.sublist (filter_sublist.map _)
      · intro j hj
        rw [hlenfin]
        exact hs.bound j (hidperm.mem_iff.2 hj)
      · intro hot hh
        rw [hlenfin]
        refine hs.hots_of_len (hhots'.trans (congrArg _ hhot)) hot hh
      · intro j h hh
        change fin.hotHashByID j = some h at hh
        rw [hhotfin j] at hh
        split_ifs at hh with hne
        obtain ⟨howner, e, he, hhe⟩ := hs.owner j h hh
        refine ⟨?_, e, ?_, hhe⟩
        · rw [hdatafin]
          refine mem_filter.2 ⟨howner, ?_⟩
          simp only [ne_eq, decide_not, Bool.not_eq_true', decide_eq_false_iff_not]
          intro heq
          rw [heq] at howner
          have := find_eq_some_of_mem hs.keys howner
          rw [hfind] at this
          cases this
          exact hne rfl
        · rw [hentries', hget, if_neg hne]
          exact he
      · intro k j e hk he hhe
        rw [hdatafin] at hk
        have hk' := mem_filter.1 hk
        have hne : j ≠ id := by
          rintro rfl
          have := hs.key_unique hk'.1 hmem
          simp [this] at hk'
        rw [hentries', hget, if_neg hne] at he
        rcases hs.attached k j e hk'.1 he hhe with ⟨h, hh, howner⟩
        refine ⟨h, ?_, howner⟩
        have hj := hhotfin j
        rw [if_neg hne] at hj
        exact hj.trans hh

theorem promote_sound (key : Bytes) (h : H) : ∃ sh', sh.promote key h = some sh' ∧ sh'.Sound := by
  cases hfind : sh.find key with
  | none => exact ⟨sh, by simp [promote, hfind], hs⟩
  | some id =>
    have hmem := mem_of_find hfind
    have hid := hs.live_bound hmem
    obtain ⟨e, m, he, hview⟩ := entryView_of_mem hs hmem
    by_cases hguard : e.isHotHash = true ∨ ¬ e.valueType = .hash
    · exact ⟨sh, by simp [promote, hfind, hview, if_pos hguard], hs⟩
    · have htype : e.valueType = .hash := by
        simp only [not_or, not_not] at hguard
        exact hguard.2
      obtain ⟨mid, hmid, hdata, hfree, hhot, hal, hlen, hget⟩ :=
        storeEntry_spec hs.aligned hid { e with rawStable := true, ref := Arena.Ref.zero }
      -- the HOT slots are extended first, so the assignment is in range
      obtain ⟨hdata₂, hfree₂, hentries₂, hal₂, ⟨hot, hhot₂, hhotlen⟩, hkeep⟩ :=
        ensureHotHashSlots_spec hal (by
          intro hot hh
          rw [hlen, hs.hots hot (hhot ▸ hh)])
      obtain ⟨sh', hsh', hdata', hfree', hentries', hal', hhots', hhot'⟩ :=
        @storeHotHash_spec M H mid.ensureHotHashSlots id (by
          intro hot' hh
          rw [hhot₂] at hh
          cases hh
          rw [hhotlen, hlen]
          exact hid) (some ⟨key, h⟩) (by simp [hhot₂])
      refine ⟨sh', ?_, ?_⟩
      · simpa [promote, hfind, hview, if_neg hguard, hmid, setHotHash] using hsh'
      · refine @Sound.write M H sh sh' hs key id hmem
          { e with rawStable := true, ref := Arena.Ref.zero } (some ⟨key, h⟩)
          (by simp [SnugValue.isHotHash, htype]) (by rintro o ⟨⟩; rfl)
          (hdata'.trans (hdata₂.trans hdata)) (hfree'.trans (hfree₂.trans hfree))
          (by rw [hentries', hentries₂, hlen]) (hal' hal₂) ?_
          (by rw [hentries', hentries₂]; exact hget) ?_
        · intro hot' hh
          have hsame : sh'.hotHashes.map len = some hot.len := by
            rw [hhots', hhot₂]
            rfl
          rw [hh] at hsame
          rw [Option.some.inj hsame, hhotlen, hlen]
        · intro j
          rw [hhot', hkeep, hotHashByID_congr hhot]

theorem mutate_sound (key : Bytes) (f : H → H) : ∃ sh', sh.mutate key f = some sh' ∧ sh'.Sound := by
  cases hfind : sh.find key with
  | none => exact ⟨sh, by simp [mutate, hfind], hs⟩
  | some id =>
    have hmem := mem_of_find hfind
    obtain ⟨e, m, he, hview⟩ := entryView_of_mem hs hmem
    cases hkind : e.isHotHash with
    | false => exact ⟨sh, by simp [mutate, hfind, hview, hkind], hs⟩
    | true =>
      obtain ⟨h, hh, howner⟩ := hs.attached key id e hmem he hkind
      have halloc : sh.hotHashes.isSome := by
        rcases Option.bind_eq_some_iff.1 hh with ⟨hot, hhot, _⟩
        simp [hhot]
      obtain ⟨sh', hsh', hdata, hfree, hentries, hal, hhots, hhot⟩ :=
        @storeHotHash_spec M H sh id (hs.hot_bound hmem)
          (some { h with hash := f h.hash }) (fun _ => halloc)
      refine ⟨sh', by simpa [mutate, hfind, hview, hkind, hh] using hsh', ?_⟩
      refine @Sound.write M H sh sh' hs key id hmem e _ (by simpa using hkind)
        (by rintro o ⟨⟩; exact howner) hdata hfree (by rw [hentries]) (hal hs.aligned)
        (hs.hots_of_len hhots) ?_ hhot
      intro j
      rw [hentries]
      split_ifs with hj
      · rw [hj, he]
      · rfl

theorem freeze_sound (key : Bytes) (e : PreparedEntry) (m : Option M) :
    ∃ sh', sh.freeze key e m = some sh' ∧ sh'.Sound := by
  cases hfind : sh.find key with
  | none => exact ⟨sh, by simp [freeze, hfind], hs⟩
  | some id =>
    obtain ⟨old, om, hold, hview⟩ := entryView_of_mem hs (mem_of_find hfind)
    cases hkind : old.isHotHash with
    | false => exact ⟨sh, by simp [freeze, hfind, hview, hkind], hs⟩
    | true =>
      -- the key exists, so nothing is appended
      have hpub := publish_sound hs key e m (by simp [hfind])
      simpa [freeze, hfind, hview, hkind] using hpub

theorem gather_total (ref : Bytes → Arena.Ref) {items : List (Bytes × Nat)}
    (h : ∀ p ∈ items, p ∈ sh.data) :
    ∃ live, sh.gather ref items = some live ∧ live.map Prod.fst = items.map Prod.fst := by
  induction items with
  | nil => exact ⟨[], rfl, rfl⟩
  | cons p items ih =>
    obtain ⟨key, id⟩ := p
    obtain ⟨e, m, he, hview⟩ := entryView_of_mem hs (h _ (mem_cons_self ..))
    rcases ih (fun p hp => h p (mem_cons_of_mem _ hp)) with ⟨live, hlive, hkeys⟩
    exact ⟨(key, { e with ref := ref key }, m) :: live, by simp [gather, hview, hlive],
      by simp [hkeys]⟩

end

theorem rebuilt_sound {items : List (Bytes × SnugValue × Option M)}
    (hkeys : (items.map Prod.fst).Nodup) (hcold : ∀ p ∈ items, p.2.1.isHotHash = false) :
    (sh.rebuilt items).Sound := by
  have hhot : (sh.rebuilt items).hotHashes = none := by
    cases hm : sh.metas <;> simp [rebuilt, hotHashes, hm]
  have hids : (sh.rebuilt items).data.map Prod.snd = range items.length := by
    simp only [rebuilt, map_map]
    refine (map_congr_left fun p _ => rfl).trans (zipIdx_map_snd 0 items) |>.trans ?_
    exact range_eq_range'.symm
  refine ⟨?_, ?_, ?_, ?_, ?_, ?_, ?_⟩
  · have hmap : (sh.rebuilt items).data.map Prod.fst = items.map Prod.fst := by
      simp only [rebuilt, map_map]
      conv_rhs => rw [← zipIdx_map_fst 0 items, map_map]
      rfl
    rw [hmap]
    exact hkeys
  · rw [hids]
    simpa [rebuilt] using nodup_range
  · rw [hids]
    intro j hj
    simpa [rebuilt] using hj
  · intro sc hsc
    rcases Option.map_eq_some_iff.1 hsc with ⟨_, _, rfl⟩
    simp [rebuilt]
  · intro hot hh
    rw [hhot] at hh
    cases hh
  · intro id h hh
    simp [hotHashByID, hhot] at hh
  · intro key id e _ he hhe
    have he' : (items.map fun p => p.2.1)[id]? = some e := he
    rcases mem_map.1 (mem_of_getElem? he') with ⟨p, hp, rfl⟩
    rw [hcold p hp] at hhe
    cases hhe

theorem rebuild_sound (hs : sh.Sound) (order : Order) (ref : Bytes → Arena.Ref) :
    ∃ sh', sh.rebuild order ref = some sh' ∧ sh'.Sound := by
  have hperm := order.perm sh.data
  rcases gather_total hs ref (fun p hp => hperm.mem_iff.1 hp) with ⟨live, hlive, hkeys⟩
  cases hany : live.any fun p => p.2.1.isHotHash with
  | true => exact ⟨sh, by simp [rebuild, hlive, hany], hs⟩
  | false =>
    refine ⟨sh.rebuilt live, by simp [rebuild, hlive, hany], rebuilt_sound ?_ ?_⟩
    · rw [hkeys]
      exact (hperm.map Prod.fst).nodup_iff.2 hs.keys
    · intro p hp
      simpa using any_eq_false.1 hany p hp

end Operations

/-! ## Runs -/

/-- Every id in use is in range of every allocated array, and a HOT hash stands at the entry of its
key and nowhere else. -/
structure Coherent (sh : Shard M H) : Prop where
  entry : ∀ key id, sh.find key = some id → id < sh.entries.len
  slot : ∀ key id sc, sh.find key = some id → sh.metas = some sc → id < sc.slots.len
  hotSlot : ∀ key id hot, sh.find key = some id → sh.hotHashes = some hot → id < hot.len
  owner : ∀ id h, sh.hotHashByID id = some h →
    sh.find h.owner = some id ∧ ∃ e, sh.entries.get? id = some e ∧ e.isHotHash = true
  attached : ∀ key id e, sh.find key = some id → sh.entries.get? id = some e →
    e.isHotHash = true → ∃ h, sh.hotHashByID id = some h ∧ h.owner = key

variable {sh : Shard M H}

theorem Sound.coherent (hs : sh.Sound) : sh.Coherent where
  entry key id h := hs.live_bound (mem_of_find h)
  slot key id sc h hsc := by
    rw [hs.aligned sc hsc]
    exact hs.live_bound (mem_of_find h)
  hotSlot key id hot h hhot := by
    rw [hs.hots hot hhot]
    exact hs.live_bound (mem_of_find h)
  owner id h hh := by
    rcases hs.owner id h hh with ⟨hmem, he⟩
    exact ⟨find_eq_some_of_mem hs.keys hmem, he⟩
  attached key id e h := hs.attached key id e (mem_of_find h)

/-- A new key is only published while the HOT slots are not allocated or an id is free. -/
def Fits (sh : Shard M H) : Op M H → Prop
  | .publish key _ _ => sh.find key = none → sh.hotHashes = none ∨ sh.freeIDs ≠ []
  | _ => True

theorem step_sound (hs : sh.Sound) {op : Op M H} (hfits : sh.Fits op) :
    ∃ sh', sh.step op = some sh' ∧ sh'.Sound := by
  cases op with
  | publish key e m => exact publish_sound hs key e m hfits
  | delete key => exact delete_sound hs key
  | promote key h => exact promote_sound hs key h
  | mutate key f => exact mutate_sound hs key f
  | freeze key e m => exact freeze_sound hs key e m
  | rebuild order ref => exact rebuild_sound hs order ref

theorem not_coherent_of_not_fits {sh' : Shard M H} (hs : sh.Sound) {op : Op M H}
    (hfits : ¬ sh.Fits op) (hstep : sh.step op = some sh') : ¬ sh'.Coherent := by
  cases op with
  | publish key e m =>
    simp only [Fits, Classical.not_imp, not_or, ne_eq, not_not] at hfits
    obtain ⟨hfind, hhot, hfree⟩ := hfits
    rcases Option.ne_none_iff_exists'.1 hhot with ⟨hot, hhot⟩
    obtain ⟨hdata, _, hhot₁, hal, hlen, _⟩ := appendEntry_spec hs.aligned e.value
    rcases setMeta_spec hal (show sh.entries.len < _ by omega) m with
      ⟨mid, hmid, hdata₂, _, _, hhot₂, _⟩
    have hsh' : { mid with data := mid.data ++ [(key, sh.entries.len)] } = sh' := by
      simpa [step, publish, set, insertEntry, hfind, hfree, hmid] using hstep
    intro hc
    -- the index now gives the id `len(entries)`, which is `len(hotHashes)`
    have hkey : sh'.find key = some sh.entries.len := by
      have hnone : sh.data.find? (fun p => decide (p.1 = key)) = none :=
        Option.map_eq_none_iff.1 hfind
      rw [← hsh', find, hdata₂, hdata, find?_append, hnone]
      simp
    have hout := hc.hotSlot key _ hot hkey (by
      rw [← hsh']
      exact (hhot₂.trans hhot₁).trans hhot)
    rw [hs.hots hot hhot] at hout
    exact lt_irrefl _ hout
  | delete _ => exact absurd trivial hfits
  | promote _ _ => exact absurd trivial hfits
  | mutate _ _ => exact absurd trivial hfits
  | freeze _ _ _ => exact absurd trivial hfits
  | rebuild _ _ => exact absurd trivial hfits

/-- From a sound shard: all states on the way are coherent exactly when every step fits. -/
theorem run_coherent_iff (hs : sh.Sound) (ops : List (Op M H)) :
    (∀ done, done <+: ops → ∃ sh', sh.run done = some sh' ∧ sh'.Coherent) ↔
      ∀ done op, done ++ [op] <+: ops → ∀ sh', sh.run done = some sh' → sh'.Fits op := by
  induction ops generalizing sh with
  | nil =>
    constructor
    · intro _ done op h
      simp at h
    · intro _ done h
      rw [prefix_nil.1 h]
      exact ⟨sh, rfl, hs.coherent⟩
  | cons op ops ih =>
    by_cases hfits : sh.Fits op
    · obtain ⟨next, hstep, hnext⟩ := step_sound hs hfits
      have hrun : ∀ done, sh.run (op :: done) = next.run done := by
        simp [run, hstep]
      constructor
      · intro hall done o hpre sh' hsh'
        cases done with
        | nil =>
          obtain ⟨rfl, -⟩ := cons_prefix_cons.1 hpre
          cases hsh'
          exact hfits
        | cons o' done =>
          obtain ⟨rfl, hrest⟩ := cons_prefix_cons.1 hpre
          refine (ih hnext).1 ?_ done o hrest sh' (hrun done ▸ hsh')
          intro done' hdone'
          rw [← hrun]
          exact hall _ (cons_prefix_cons.2 ⟨rfl, hdone'⟩)
      · intro hall done hpre
        cases done with
        | nil => exact ⟨sh, rfl, hs.coherent⟩
        | cons o done =>
          obtain ⟨rfl, hrest⟩ := cons_prefix_cons.1 hpre
          rw [hrun]
          refine (ih hnext).2 ?_ done hrest
          intro done' o' hdone' sh' hsh'
          exact hall (o :: done') o' (cons_prefix_cons.2 ⟨rfl, hdone'⟩) sh'
            ((hrun done').trans hsh')
    · constructor
      · intro hall
        rcases hall [op] (by simp) with ⟨sh', hsh', hcoh⟩
        have hstep : sh.step op = some sh' := by simpa [run] using hsh'
        exact absurd hcoh (not_coherent_of_not_fits hs hfits hstep)
      · intro hall
        exact absurd (hall [] op (by simp) sh rfl) hfits

/-- In a run from the empty shard no operation panics and every state is coherent, exactly when no
new key is appended while the HOT slots are allocated. -/
theorem sidecars_coherent_iff (ops : List (Op M H)) :
    (∀ done, done <+: ops → ∃ sh, (empty : Shard M H).run done = some sh ∧ sh.Coherent) ↔
      ∀ done op, done ++ [op] <+: ops → ∀ sh, (empty : Shard M H).run done = some sh → sh.Fits op :=
  run_coherent_iff sound_empty ops

def promoteInsertDelete : List (Op Unit Unit) :=
  [.publish [1] ⟨{ valueType := .hash }, rfl⟩ none, .promote [1] (),
    .publish [2] ⟨{ valueType := .string }, rfl⟩ none, .delete [2]]

theorem delete_after_promote_panics : (empty : Shard Unit Unit).run promoteInsertDelete = none := by
  rfl

end Shard
end Engine
end SnugKV
