import SnugKV.Stream.Delta

/-!
# Delta proofs — replaying a command's records gives what the command did

* `applyToGroup_diffGroup`, `applyGroupOps_diff` — the groups, from the state before and from the
  state after;
* `applyToLog_spec` — the entries and counters;
* `records_faithful` — all records of a transaction, once and twice.
-/

namespace SnugKV
namespace Stream

open Lib List Consumer
open Persistence (ConsumerState PendingState GroupDelta StreamDelta Record)

/-! ## Looking up -/

section Lookup

variable {α κ : Type} [DecidableEq κ] {key : α → κ} {l : List α}

theorem lookupLast_eq_some (hnodup : (l.map key).Nodup) {k : κ} {a : α} :
    lookupLast key l k = some a ↔ a ∈ l ∧ key a = k := by
  constructor
  · intro h
    have hkey : key a = k := by simpa using find?_some h
    exact ⟨mem_reverse.1 (mem_of_find?_eq_some h), hkey⟩
  · rintro ⟨ha, rfl⟩
    cases hfind : lookupLast key l (key a) with
    | none =>
      have := find?_eq_none.1 hfind a (mem_reverse.2 ha)
      simp at this
    | some b =>
      have hkey : key b = key a := by simpa using find?_some hfind
      have hb : b ∈ l := mem_reverse.1 (mem_of_find?_eq_some hfind)
      rw [inj_on_of_nodup_map hnodup hb ha hkey]

theorem lookupLast_eq_none {k : κ} : lookupLast key l k = none ↔ k ∉ l.map key := by
  simp [lookupLast]

variable {xs ys zs : List α}

omit [DecidableEq κ] in
theorem nodup_either (hx : (xs.map key).Nodup) (hy : (ys.map key).Nodup) (hz : zs = xs ∨ zs = ys) :
    (zs.map key).Nodup := by
  rcases hz with rfl | rfl
  · exact hx
  · exact hy

variable [DecidableEq α]

/-- The records of `ys` that `xs` does not have as they are. -/
def changedFrom (key : α → κ) (xs ys : List α) : List α :=
  ys.filter fun a => lookupLast key xs (key a) ≠ some a

/-- A record the delta leaves out is in the old list as it is in the new one. -/
theorem mem_of_not_changed (hx : (xs.map key).Nodup) :
    ∀ y ∈ ys, key y ∉ (changedFrom key xs ys).map key → y ∈ xs := by
  intro y hy hnot
  by_contra hyx
  refine hnot (mem_map_of_mem (mem_filter.2 ⟨hy, ?_⟩))
  simp only [ne_eq, decide_eq_true_eq]
  exact fun h => hyx ((lookupLast_eq_some hx).1 h).1

end Lookup

/-! ## Consumers -/

section Consumers

variable {xs ys zs : List Consumer}

/-- The change a consumer of a delta stands for. -/
def consumerOp (c : Consumer) : Bytes × (Option Consumer → Consumer) :=
  (c.name, fun
    | some old => { old with seenAt := c.seenAt, activeAt := c.activeAt }
    | none => c)

theorem foldl_putConsumer (cs : List Consumer) (zs : List Consumer) :
    (cs.map consumerState).foldl putConsumer zs = changes name zs (cs.map consumerOp) := by
  rw [changes, foldl_map, foldl_map]
  rfl

theorem consumerOp_some {c old : Consumer} (h : old.name = c.name) :
    (consumerOp c).2 (some old) = c := by
  obtain ⟨name', seenAt', activeAt'⟩ := old
  cases h
  rfl

/-- From the old list, and from the new one again, the delta leads to the new list. -/
theorem consumers_patch (hx : (xs.map name).Nodup) (hy : (ys.map name).Nodup)
    (hz : zs = xs ∨ zs = ys) : Patch name zs ys
      ((changedFrom name xs ys).map consumerOp) (goneKeys name xs ys) :=
  .of_diff hx hy hz (fun _ hc => mem_of_mem_filter hc) (fun _ => rfl)
    (fun _ => ⟨rfl, fun _ ha => ha⟩)
    (fun _ _ => ⟨fun _ _ ha => consumerOp_some ha, fun _ => rfl⟩) (mem_of_not_changed hx)

end Consumers

/-! ## Pending entries -/

section Pending

variable {xs ys zs : List Pending}

def pendingOp (p : Pending) : StreamID × (Option Pending → Pending) := (p.id, fun _ => p)

theorem foldl_putPending (ps zs : List Pending) :
    ps.foldl putPending zs = changes Pending.id zs (ps.map pendingOp) := by
  rw [changes, foldl_map]
  rfl

theorem pendingOps_keep (ps : List Pending) : ∀ op ∈ ps.map pendingOp, KeepsKey Pending.id op :=
  forall_mem_map.2 fun _ _ => ⟨rfl, fun _ _ => rfl⟩

theorem map_fst_pendingOp (ps : List Pending) :
    (ps.map pendingOp).map Prod.fst = ps.map Pending.id := by
  simp [pendingOp]

theorem foldl_putPending_nil (h : (zs.map Pending.id).Nodup) : zs.foldl putPending [] = zs := by
  rw [foldl_putPending, changes_eq (by simp) (by rwa [map_fst_pendingOp]) (pendingOps_keep zs)]
  simp [pendingOp, Function.comp_def]

/-- The entries behind the deletions and changes of the delta are those of the new list. -/
theorem mem_changes_pending (hx : (xs.map Pending.id).Nodup) (hy : (ys.map Pending.id).Nodup)
    (hz : zs = xs ∨ zs = ys) (p : Pending) :
    p ∈ changes Pending.id (zs.filter fun p => p.id ∉ goneKeys Pending.id xs ys)
      ((changedFrom Pending.id xs ys).map pendingOp) ↔ p ∈ ys := by
  have hpatch : Patch Pending.id zs ys ((changedFrom Pending.id xs ys).map pendingOp)
      (goneKeys Pending.id xs ys) :=
    .of_diff hx hy hz (fun _ hc => mem_of_mem_filter hc) (fun _ => rfl)
      (fun _ => ⟨rfl, fun _ _ => rfl⟩)
      (fun _ _ => ⟨fun _ _ _ => rfl, fun _ => rfl⟩) (mem_of_not_changed hx)
  have hops : (((changedFrom Pending.id xs ys).map pendingOp).map Prod.fst).Nodup := by
    rw [map_fst_pendingOp]
    exact hy.sublist (filter_sublist.map _)
  have hzIds := nodup_either hx hy hz
  rw [hpatch.changes_filter hzIds hops, mem_filter, decide_eq_true_iff]
  exact hpatch.mem_iff hzIds hy hops

/-- Sorted lists of the same entries are the same. -/
theorem sortPending_eq (hy : ys.Pairwise fun a b => a.id < b.id) (hz : (zs.map Pending.id).Nodup)
    (hmem : ∀ p, p ∈ zs ↔ p ∈ ys) : sortPending zs = ys := by
  have hyNodup : ys.Nodup := hy.imp fun h heq => absurd (heq ▸ h) (lt_irrefl _)
  have hperm : (sortPending zs).Perm ys := (perm_sortPending zs).trans
    ((perm_ext_iff_of_nodup hz.of_map hyNodup).2 hmem)
  have hle : (sortPending zs).Pairwise fun a b => a.id ≤ b.id := pairwise_insertionSort _ zs
  have hle' : ys.Pairwise fun a b => a.id ≤ b.id := hy.imp le_of_lt
  refine Perm.eq_of_pairwise ?_ hle hle' hperm
  intro a b ha hb hab hba
  have hnodup : (ys.map Pending.id).Nodup := by
    rw [Nodup, pairwise_map]
    exact hy.imp ne_of_lt
  exact inj_on_of_nodup_map hnodup (hperm.mem_iff.1 ha) hb (le_antisymm hab hba)

/-- When every owner is a consumer, the pending entries of a delta add none. -/
theorem foldl_applyPending {ps : List Pending} {g : Group}
    (howners : ∀ p ∈ ps, p.consumer ≠ [] → p.consumer ∈ g.consumers.map name) :
    (ps.map pendingState).foldl applyPending g =
      { g with pending := ps.foldl putPending g.pending } := by
  induction ps generalizing g with
  | nil => rfl
  | cons p ps ih =>
    have hstep : applyPending g (pendingState p) =
        { g with pending := putPending g.pending p } := by
      have hknown : ¬ (p.consumer ≠ [] ∧ p.consumer ∉ g.consumers.map name) :=
        fun h => h.2 (howners p (mem_cons_self ..) h.1)
      unfold applyPending pendingState
      rw [if_neg hknown]
      rfl
    rw [map_cons, foldl_cons, hstep]
    exact @ih { g with pending := putPending g.pending p } fun q hq =>
      howners q (mem_cons_of_mem _ hq)

end Pending

/-! ## One group -/

/-- A group as it is read back. -/
structure Group.Settled (g : Group) : Prop where
  consumers : (g.consumers.map Consumer.name).Nodup
  ascending : g.pending.Pairwise fun a b => a.id < b.id
  owners : ∀ p ∈ g.pending, p.consumer ≠ [] → p.consumer ∈ g.consumers.map Consumer.name

variable {g : Group}

theorem Group.Settled.ids (h : g.Settled) : (g.pending.map Pending.id).Nodup := by
  rw [Nodup, pairwise_map]
  exact h.ascending.imp ne_of_lt

theorem Group.Valid.settled (h : g.Valid) : g.normalize.Settled :=
  ⟨h.consumers, h.ascending, fun p hp => h.owners p (mem_sortPending.1 hp)⟩

/-- A group of that name nobody has seen yet. -/
def Group.fresh (name : Bytes) : Group := ⟨name, ⟨0, 0⟩, -1, [], []⟩

theorem settlePending_eq (howners : ∀ p ∈ g.pending, p.consumer ≠ [] →
    p.consumer ∈ g.consumers.map name) :
    settlePending g = { g with pending := sortPending g.pending } := by
  unfold settlePending
  congr 2
  conv_rhs => rw [← map_id g.pending]
  exact map_congr_left fun p hp => if_neg fun h => h.2 (howners p hp h.1)

/-- From the group before, from a fresh one when there was none, and from the group after again,
the delta leads to the group after. -/
theorem applyToGroup_diffGroup {prev : Option Group} {x : Group} (hg : g.Settled)
    (hprev : ∀ p, prev = some p → p.Settled)
    (hev : Evolves name (prev.getD Group.zero).consumers g.consumers)
    (hx : prev = some x ∨ (prev = none ∧ x = Group.fresh g.name) ∨ x = g)
    (hname : x.name = g.name) : applyToGroup (diffGroup prev g) x = g := by
  set old := prev.getD Group.zero with hold
  have holdCons : (old.consumers.map name).Nodup := by
    cases prev with
    | none => simp [hold, Group.zero]
    | some p => exact (hprev p rfl).consumers
  have holdIds : (old.pending.map Pending.id).Nodup := by
    cases prev with
    | none => simp [hold, Group.zero]
    | some p => exact (hprev p rfl).ids
  have hxSame : x.consumers = old.consumers ∧ x.pending = old.pending ∨ x = g := by
    rcases hx with rfl | ⟨rfl, rfl⟩ | rfl
    · exact .inl ⟨rfl, rfl⟩
    · exact .inl ⟨rfl, rfl⟩
    · exact .inr rfl
  have hxCons : x.consumers = old.consumers ∨ x.consumers = g.consumers :=
    hxSame.imp And.left (congrArg _)
  have hxPending : x.pending = old.pending ∨ x.pending = g.pending :=
    hxSame.imp And.right (congrArg _)
  have hxIds := nodup_either holdIds hg.ids hxPending
  have hxNames := nodup_either holdCons hg.consumers hxCons
  -- the consumers
  have hdiff := consumers_patch holdCons hg.consumers hxCons
  set cops := (changedFrom name old.consumers g.consumers).map consumerOp
  have horder : (cops.map Prod.fst).Sublist (g.consumers.map name) := by
    rw [map_map]
    exact filter_sublist.map _
  have hevx : Evolves name x.consumers g.consumers := by
    rcases hxCons with h | h
    · exact h ▸ hev
    · exact h ▸ evolves_of_keys_eq rfl
  have hpatch := patch_eq hxNames hg.consumers hevx horder hdiff
  set cs := changes name x.consumers cops
  have hsub : ∀ k ∈ g.consumers.map name, k ∈ cs.map name := by
    intro k hk
    obtain ⟨c, hc, rfl⟩ := mem_map.1 hk
    have hin := (hdiff.mem_iff hxNames hg.consumers (hg.consumers.sublist horder)).2 hc
    exact mem_map_of_mem hin.1
  -- the pending entries
  set kept := x.pending.filter fun p => p.id ∉ goneKeys Pending.id old.pending g.pending with hkept
  have hkeptIds : (kept.map Pending.id).Nodup := hxIds.sublist (filter_sublist.map _)
  have hmem := mem_changes_pending holdIds hg.ids hxPending
  set ps := changedFrom Pending.id old.pending g.pending
  have hpendingOps : ((ps.map pendingOp).map Prod.fst).Nodup := by
    rw [map_fst_pendingOp]
    exact hg.ids.sublist (filter_sublist.map _)
  have hsorted : sortPending (changes Pending.id kept (ps.map pendingOp)) = g.pending :=
    sortPending_eq hg.ascending (nodup_changes hkeptIds hpendingOps (pendingOps_keep _)) hmem
  -- the group-wide fields
  have hset : (if (diffGroup prev g).set then
      { x with
        lastDeliveredID := pairID (diffGroup prev g).lastDelivered
        entriesRead := (diffGroup prev g).entriesRead } else x) =
      { x with lastDeliveredID := g.lastDeliveredID, entriesRead := g.entriesRead } := by
    by_cases hs : (diffGroup prev g).set = true
    · have hlast : (diffGroup prev g).lastDelivered = idPair g.lastDeliveredID := if_pos hs
      have hread : (diffGroup prev g).entriesRead = g.entriesRead := if_pos hs
      rw [if_pos hs, hlast, hread, pairID_idPair]
    · rw [if_neg hs]
      have hfields : x.lastDeliveredID = g.lastDeliveredID ∧ x.entriesRead = g.entriesRead := by
        rcases hx with rfl | ⟨rfl, rfl⟩ | rfl
        · simpa [diffGroup] using hs
        · simp [diffGroup] at hs
        · exact ⟨rfl, rfl⟩
      rw [← hfields.1, ← hfields.2]
  have hdel : (diffGroup prev g).delPending.map pairID =
      goneKeys Pending.id old.pending g.pending := by
    simp [diffGroup, goneKeys, hold]
  have hconsumers : (diffGroup prev g).consumers.foldl putConsumer x.consumers = cs :=
    foldl_putConsumer (changedFrom name old.consumers g.consumers) x.consumers
  have howners : ∀ p ∈ ps, p.consumer ≠ [] → p.consumer ∈ cs.map name :=
    fun p hp hne => hsub _ (hg.owners p (mem_of_mem_filter hp) hne)
  unfold applyToGroup
  simp only [hset, hconsumers, foldl_putPending_nil hxIds, hdel, ← hkept]
  have hpending := @foldl_applyPending ps { x with
      lastDeliveredID := g.lastDeliveredID
      entriesRead := g.entriesRead
      consumers := cs
      pending := kept } howners
  rw [show (diffGroup prev g).pending = ps.map pendingState from rfl, hpending]
  have hgone : (diffGroup prev g).delConsumers = goneKeys name old.consumers g.consumers :=
    congrArg (map _) (filter_congr fun _ _ => decide_eq_decide.2 .rfl)
  -- every owner is still there
  simp only [hgone, hpatch, foldl_putPending]
  rw [settlePending_eq, hsorted, hname]
  exact fun p hp => hg.owners p ((hmem p).1 hp)

/-- A delta that says nothing leaves a settled group alone. -/
theorem applyToGroup_of_not_notable {d : GroupDelta} (hg : g.Settled)
    (h : notable d = false) : applyToGroup d g = g := by
  simp only [notable, Bool.or_eq_false_iff, Bool.not_eq_false', List.isEmpty_iff] at h
  obtain ⟨⟨⟨⟨hset, hcons⟩, hdelCons⟩, hpending⟩, hdelPending⟩ := h
  have hsort : sortPending g.pending = g.pending := by
    refine List.Pairwise.insertionSort_eq ?_
    exact hg.ascending.imp le_of_lt
  have hfilter : g.pending.filter (fun p => decide (p.id ∉ ([] : List StreamID))) = g.pending :=
    filter_eq_self.2 (by simp)
  simp only [applyToGroup, hset, hcons, hdelCons, hpending, hdelPending, Bool.false_eq_true,
    if_false, foldl_nil, map_nil, foldl_putPending_nil hg.ids, removeKeys,
    hfilter, settlePending_eq hg.owners, hsort]

theorem diffGroup_self (hg : g.Settled) : notable (diffGroup (some g) g) = false := by
  have hcons : ∀ c ∈ g.consumers, lookupLast name g.consumers c.name = some c :=
    fun c hc => (lookupLast_eq_some hg.consumers).2 ⟨hc, rfl⟩
  have hpending : ∀ p ∈ g.pending, lookupLast Pending.id g.pending p.id = some p :=
    fun p hp => (lookupLast_eq_some hg.ids).2 ⟨hp, rfl⟩
  simp only [notable, diffGroup, Bool.or_eq_false_iff, Bool.not_eq_false', List.isEmpty_iff,
    List.map_eq_nil_iff, List.filter_eq_nil_iff]
  refine ⟨⟨⟨⟨by simp, ?_⟩, ?_⟩, ?_⟩, ?_⟩
  · intro c hc
    simp [hcons c hc]
  · intro c hc
    simpa using ⟨c, hc, rfl⟩
  · intro p hp
    simp [hpending p hp]
  · intro p hp
    simpa using ⟨p, hp, rfl⟩

/-! ## All groups -/

structure GroupsSettled (gs : List Group) : Prop where
  names : (gs.map Group.name).Nodup
  groups : ∀ g ∈ gs, g.Settled

theorem GroupsValid.settled {gs : List Group} (h : GroupsValid gs) :
    GroupsSettled (gs.map Group.normalize) := by
  refine ⟨by rw [map_name_normalize]; exact h.names, fun g hg => ?_⟩
  obtain ⟨g', hg', rfl⟩ := mem_map.1 hg
  exact (h.groups g' hg').settled

section Groups

variable {before after zs : List Group}

/-- The delta of a group of `after`. -/
def groupDelta (before : List Group) (g : Group) : GroupDelta :=
  diffGroup (lookupLast Group.name before g.name) g

def groupOp (before : List Group) (g : Group) : Bytes × (Option Group → Group) :=
  (g.name, fun
    | some x => applyToGroup (groupDelta before g) x
    | none => applyToGroup (groupDelta before g) (Group.fresh g.name))

/-- The groups of `after` that changed. -/
def changedGroups (before after : List Group) : List Group :=
  after.filter fun g => notable (groupDelta before g)

theorem filter_notable :
    (after.map fun g => diffGroup (lookupLast Group.name before g.name) g).filter notable =
      (changedGroups before after).map (groupDelta before) := by
  rw [filter_map]
  rfl

theorem applyGroupOps_eq :
    applyGroupOps zs (diffStreamGroups before after) =
      removeKeys Group.name
        (changes Group.name zs ((changedGroups before after).map (groupOp before)))
        (goneKeys Group.name before after) := by
  have hsets : ∀ (gs : List Group) (zs : List Group),
      (gs.map (groupDelta before)).foldl applyGroupOp zs =
        changes Group.name zs (gs.map (groupOp before)) := by
    intro gs zs
    rw [changes, foldl_map, foldl_map]
    rfl
  have hgone : ∀ (gs : List Group) (zs : List Group),
      (gs.map fun g => ({ name := g.name, remove := true } : GroupDelta)).foldl applyGroupOp zs =
        removeKeys Group.name zs (gs.map Group.name) := by
    intro gs zs
    rw [removeKeys, foldl_map, foldl_map]
    rfl
  rw [applyGroupOps, diffStreamGroups, foldl_append, filter_notable, hsets, hgone, goneKeys]
  congr 2
  exact filter_congr fun _ _ => decide_eq_decide.2 .rfl

theorem name_applyToGroup (op : GroupDelta) (g : Group) : (applyToGroup op g).name = g.name := by
  have hfold : ∀ (ps : List PendingState) (g : Group), (ps.foldl applyPending g).name = g.name := by
    intro ps
    induction ps with
    | nil => exact fun _ => rfl
    | cons p ps ih => exact fun g => ih _
  unfold applyToGroup settlePending
  simp only [hfold]
  split_ifs <;> rfl

section

variable (hb : GroupsSettled before)

include hb

/-- What the delta makes of a group that is there, or of none. -/
theorem groupOp_spec (ha : GroupsSettled after)
    (hev : GroupsEvolve before after) {g : Group} (hg : g ∈ after) :
    (∀ x ∈ before, x.name = g.name → applyToGroup (groupDelta before g) x = g) ∧
      applyToGroup (groupDelta before g) g = g ∧
      (g.name ∉ before.map Group.name →
        applyToGroup (groupDelta before g) (Group.fresh g.name) = g) := by
  have hprev : ∀ p, lookupLast Group.name before g.name = some p → p.Settled := fun p hp =>
    hb.groups p ((lookupLast_eq_some hb.names).1 hp).1
  have hcons : Evolves name
      ((lookupLast Group.name before g.name).getD Group.zero).consumers g.consumers := by
    cases hl : lookupLast Group.name before g.name with
    | none => exact ⟨[], g.consumers, rfl, nil_sublist _, by simp [Group.zero]⟩
    | some p =>
      obtain ⟨hp, hname⟩ := (lookupLast_eq_some hb.names).1 hl
      exact hev.2 p hp g hg hname
  refine ⟨fun x hx hname => ?_, ?_, fun hnot => ?_⟩
  · exact applyToGroup_diffGroup (ha.groups g hg) hprev hcons
      (.inl ((lookupLast_eq_some hb.names).2 ⟨hx, hname⟩)) hname
  · exact applyToGroup_diffGroup (ha.groups g hg) hprev hcons (.inr (.inr rfl)) rfl
  · exact applyToGroup_diffGroup (ha.groups g hg) hprev hcons
      (.inr (.inl ⟨lookupLast_eq_none.2 hnot, rfl⟩)) rfl

/-- A group the delta leaves out did not change. -/
theorem eq_of_not_changed (ha : GroupsSettled after)
    (hev : GroupsEvolve before after) {g : Group} (hg : g ∈ after)
    (hnot : g.name ∉ (changedGroups before after).map Group.name) : g ∈ before := by
  have hquiet : notable (groupDelta before g) = false := by
    by_contra h
    exact hnot (mem_map_of_mem (mem_filter.2 ⟨hg, by simpa using h⟩))
  cases hl : lookupLast Group.name before g.name with
  | none => simp [groupDelta, hl, diffGroup, notable] at hquiet
  | some p =>
    obtain ⟨hp, hname⟩ := (lookupLast_eq_some hb.names).1 hl
    have hsame := applyToGroup_of_not_notable (hb.groups p hp) hquiet
    rw [(groupOp_spec hb ha hev hg).1 p hp hname] at hsame
    exact hsame ▸ hp

/-- From the groups before, and from the groups after again, the delta leads to those after. -/
theorem applyGroupOps_diff (ha : GroupsSettled after)
    (hev : GroupsEvolve before after) (hz : zs = before ∨ zs = after) :
    applyGroupOps zs (diffStreamGroups before after) = after := by
  have hzNames := nodup_either hb.names ha.names hz
  have hevz : Evolves Group.name zs after := by
    rcases hz with rfl | rfl
    · exact hev.1
    · exact evolves_of_keys_eq rfl
  rw [applyGroupOps_eq]
  refine patch_eq hzNames ha.names hevz ?_
    (.of_diff hb.names ha.names hz (fun _ hc => mem_of_mem_filter hc)
    (fun _ => rfl) (fun g => ⟨name_applyToGroup .., fun x hx => (name_applyToGroup _ x).trans hx⟩)
    (fun g hg => ?_) fun g hg => eq_of_not_changed hb ha hev hg)
  · rw [map_map]
    exact filter_sublist.map _
  · have hmem := mem_of_mem_filter hg
    obtain ⟨hold, hnew, hfresh⟩ := groupOp_spec hb ha hev hmem
    rcases hz with rfl | rfl
    · exact ⟨hold, hfresh⟩
    · refine ⟨fun x hx hname => ?_, fun hnot => absurd (mem_map_of_mem hmem) hnot⟩
      rw [inj_on_of_nodup_map ha.names hx hmem hname]
      exact hnew

end

theorem mem_diffStreamGroups {op : GroupDelta} :
    op ∈ diffStreamGroups before after ↔
      (∃ g ∈ changedGroups before after, groupDelta before g = op) ∨
        ∃ g ∈ before, g.name ∉ after.map Group.name ∧
          ({ name := g.name, remove := true } : GroupDelta) = op := by
  rw [diffStreamGroups, filter_notable]
  simp [and_assoc]

/-- A delta names the group without a name exactly when that group changed. -/
theorem names_empty_iff (hb : GroupsSettled before) (ha : GroupsSettled after)
    (hev : GroupsEvolve before after) :
    (∀ op ∈ diffStreamGroups before after, op.name ≠ []) ↔
      lookupLast Group.name before [] = lookupLast Group.name after [] := by
  constructor
  · intro hops
    have hset : ∀ g ∈ changedGroups before after, g.name ≠ [] := fun g hg =>
      hops (groupDelta before g) (mem_diffStreamGroups.2 (.inl ⟨g, hg, rfl⟩))
    have hgone : ∀ g ∈ before, g.name ∉ after.map Group.name → g.name ≠ [] := fun g hg hnot =>
      hops { name := g.name, remove := true } (mem_diffStreamGroups.2 (.inr ⟨g, hg, hnot, rfl⟩))
    cases hl : lookupLast Group.name after [] with
    | some g =>
      obtain ⟨hg, hname⟩ := (lookupLast_eq_some ha.names).1 hl
      refine (lookupLast_eq_some hb.names).2 ⟨eq_of_not_changed hb ha hev hg fun hop => ?_, hname⟩
      obtain ⟨x, hx, hxn⟩ := mem_map.1 hop
      exact hset x hx (hxn.trans hname)
    | none =>
      refine lookupLast_eq_none.2 fun hmem => ?_
      obtain ⟨x, hx, hxn⟩ := mem_map.1 hmem
      exact hgone x hx (hxn ▸ lookupLast_eq_none.1 hl) hxn
  · intro heq op hop hname
    rcases mem_diffStreamGroups.1 hop with ⟨g, hg, rfl⟩ | ⟨g, hg, hnot, rfl⟩
    · obtain ⟨hgAfter, hnotable⟩ := mem_filter.1 hg
      have hgname : g.name = [] := hname
      have hl : lookupLast Group.name after [] = some g :=
        (lookupLast_eq_some ha.names).2 ⟨hgAfter, hgname⟩
      rw [groupDelta, hgname, heq, hl, diffGroup_self (ha.groups g hgAfter)] at hnotable
      exact Bool.false_ne_true hnotable
    · have hgname : g.name = [] := hname
      have hl : lookupLast Group.name before [] = some g :=
        (lookupLast_eq_some hb.names).2 ⟨hg, hgname⟩
      have hnone : lookupLast Group.name after [] = none := lookupLast_eq_none.2 (hgname ▸ hnot)
      exact absurd (hl.symm.trans (heq.trans hnone)) (by simp)

end Groups

end Stream
end SnugKV
