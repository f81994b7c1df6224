import SnugKV.Stream.BodyRefinement
import SnugKV.Stream.Watch

/-!
# Command proofs — what the stream commands do to groups and entries

* `SameShape`, `Thinned`, `GroupsGrown`, `GroupsEvolve` — how commands change a list of groups;
* `Body.Shrinks` — the trims and deletions of the commands on entries, with the journal they keep;
* `State.Thins`, `Gathers` — the plans of XADD and XTRIM, and the loops of XDELEX and XACKDEL.
-/

namespace SnugKV
namespace Stream

open Lib List StreamID

/-! ## How groups change -/

def SameShape (gs gs' : List Group) : Prop :=
  gs'.map (fun g => (g.name, g.consumers)) = gs.map fun g => (g.name, g.consumers)

/-- The same groups, each with new consumers behind the old ones at the most. -/
structure GroupsGrown (gs gs' : List Group) : Prop where
  names : gs'.map Group.name = gs.map Group.name
  consumers : ∀ (i : Nat) (g g' : Group), gs[i]? = some g → gs'[i]? = some g' →
    g.consumers.map Consumer.name <+: g'.consumers.map Consumer.name

/-- Groups by name; where a group stays its consumers evolve too. -/
def GroupsEvolve (gs gs' : List Group) : Prop :=
  Evolves Group.name gs gs' ∧ ∀ g ∈ gs, ∀ g' ∈ gs', g.name = g'.name →
    Evolves Consumer.name g.consumers g'.consumers

section Shape

variable {gs gs' gs'' : List Group}

theorem SameShape.names (h : SameShape gs gs') : gs'.map Group.name = gs.map Group.name := by
  simpa [Function.comp_def] using congrArg (map Prod.fst) h

variable {g' : Group} {g : Group}

theorem SameShape.find (h : SameShape gs gs') (hg' : g' ∈ gs') :
    ∃ g ∈ gs, g.name = g'.name ∧ g.consumers = g'.consumers := by
  have hmem : (g'.name, g'.consumers) ∈ gs.map fun g => (g.name, g.consumers) := by
    rw [← h]
    exact mem_map_of_mem (f := fun g : Group => (g.name, g.consumers)) hg'
  obtain ⟨g, hg, heq⟩ := mem_map.1 hmem
  exact ⟨g, hg, congrArg Prod.fst heq, congrArg Prod.snd heq⟩

theorem GroupsEvolve.reshape (h : GroupsEvolve gs gs') (hshape : SameShape gs' gs'') :
    GroupsEvolve gs gs'' := by
  refine ⟨h.1.congr hshape.names, fun g hg g' hg' hname => ?_⟩
  obtain ⟨x, hx, hxname, hcons⟩ := hshape.find hg'
  rw [← hcons]
  exact h.2 g hg x hx (hname.trans hxname.symm)

theorem sameShape_normalize (gs : List Group) : SameShape gs (gs.map Group.normalize) := by
  simp [SameShape, Group.normalize, Function.comp_def]

theorem groupsEvolve_refl (hnodup : (gs.map Group.name).Nodup) : GroupsEvolve gs gs :=
  ⟨evolves_of_keys_eq rfl,
    related_of_subset hnodup (fun _ => evolves_of_keys_eq rfl) (Subset.refl gs)⟩

theorem SameShape.evolve (h : SameShape gs gs') (hnodup : (gs.map Group.name).Nodup) :
    GroupsEvolve gs gs' := (groupsEvolve_refl hnodup).reshape h

theorem groupsEvolve_concat (hnodup : (gs.map Group.name).Nodup)
    (hfresh : g.name ∉ gs.map Group.name) : GroupsEvolve gs (gs ++ [g]) :=
  ⟨⟨gs, [g], rfl, .refl _, by simpa using hfresh⟩,
    related_concat hnodup (fun _ => evolves_of_keys_eq rfl) hfresh⟩

theorem groupsEvolve_eraseIdx (hnodup : (gs.map Group.name).Nodup) (i : Nat) :
    GroupsEvolve gs (gs.eraseIdx i) :=
  ⟨evolves_of_sublist ((eraseIdx_sublist ..).map _),
    related_of_subset hnodup (fun _ => evolves_of_keys_eq rfl) (eraseIdx_sublist ..).subset⟩

variable {i : Nat}

theorem map_name_set (hi : gs[i]? = some g) (hname : g'.name = g.name) :
    (gs.set i g').map Group.name = gs.map Group.name := by
  obtain ⟨hlt, rfl⟩ := List.getElem?_eq_some_iff.1 hi
  rw [List.map_set, hname]
  conv_rhs => rw [← @set_getElem_self _ (gs.map Group.name) i (by simpa using hlt)]
  simp

theorem groupsEvolve_set (hnodup : (gs.map Group.name).Nodup)
    (hi : gs[i]? = some g) (hname : g'.name = g.name)
    (hcons : Evolves Consumer.name g.consumers g'.consumers) : GroupsEvolve gs (gs.set i g') :=
  ⟨evolves_of_keys_eq (map_name_set hi hname),
    related_set hnodup (fun _ => evolves_of_keys_eq rfl) hi hname hcons⟩

theorem GroupsGrown.refl (gs : List Group) : GroupsGrown gs gs := ⟨rfl, fun i g g' hg hg' => by
    rw [hg] at hg'
    cases hg'
    exact prefix_rfl⟩

theorem GroupsGrown.find (h : GroupsGrown gs gs') (hg' : gs'[i]? = some g') :
    ∃ g, gs[i]? = some g ∧ g.name = g'.name := by
  have hname := congrArg (fun ns => ns[i]?) h.names
  simp only [getElem?_map, hg', Option.map_some] at hname
  exact Option.map_eq_some_iff.1 hname.symm

theorem GroupsGrown.trans (h : GroupsGrown gs gs') (h' : GroupsGrown gs' gs'') :
    GroupsGrown gs gs'' := by
  refine ⟨h'.names.trans h.names, fun i g g'' hg hg'' => ?_⟩
  obtain ⟨g', hg', -⟩ := h'.find hg''
  exact (h.consumers i g g' hg hg').trans (h'.consumers i g' g'' hg' hg'')

theorem SameShape.grown (h : SameShape gs gs') : GroupsGrown gs gs' := by
  refine ⟨h.names, fun i g g' hg hg' => ?_⟩
  have hshape := congrArg (fun ns => ns[i]?) h
  simp only [getElem?_map, hg, hg', Option.map_some, Option.some.injEq, Prod.mk.injEq] at hshape
  rw [hshape.2]

theorem groupsGrown_set (hi : gs[i]? = some g) (hname : g'.name = g.name)
    (hcons : g.consumers.map Consumer.name <+: g'.consumers.map Consumer.name) :
    GroupsGrown gs (gs.set i g') := by
  refine ⟨map_name_set hi hname, fun j x x' hx hx' => ?_⟩
  by_cases hij : i = j
  · subst hij
    obtain ⟨hlt, -⟩ := List.getElem?_eq_some_iff.1 hi
    rw [List.getElem?_set_self hlt] at hx'
    rw [hi] at hx
    cases hx
    cases hx'
    exact hcons
  · rw [getElem?_set_ne hij, hx] at hx'
    cases hx'
    exact prefix_rfl

theorem GroupsGrown.evolve (h : GroupsGrown gs gs') (hvalid : GroupsValid gs') :
    GroupsEvolve gs gs' := by
  have hnodup : (gs.map Group.name).Nodup := h.names ▸ hvalid.names
  refine ⟨evolves_of_keys_eq h.names, related_of_find hnodup fun g' hg' _ => ?_⟩
  obtain ⟨i, hi⟩ := mem_iff_getElem?.1 hg'
  obtain ⟨g, hg, hname⟩ := h.find hi
  exact ⟨g, mem_of_getElem? hg, hname,
    evolves_of_grown (hvalid.groups g' hg').consumers (h.consumers i g g' hg hi)⟩

/-! Commands with a policy drop pending entries. -/

def Thinned : List Group → List Group → Prop :=
  List.Forall₂ fun g g' => g'.name = g.name ∧ g'.consumers = g.consumers ∧
    g'.lastDeliveredID = g.lastDeliveredID ∧ g'.pending.Sublist g.pending

theorem Thinned.refl (gs : List Group) : Thinned gs gs :=
  forall₂_same.2 fun _ _ => ⟨rfl, rfl, rfl, Sublist.refl _⟩

theorem Thinned.trans (h : Thinned gs gs') (h' : Thinned gs' gs'') : Thinned gs gs'' := by
  induction h generalizing gs'' with
  | nil => exact h'
  | cons hg _ ih =>
    cases h' with
    | cons hg' hrest =>
      exact .cons ⟨hg'.1.trans hg.1, hg'.2.1.trans hg.2.1, hg'.2.2.1.trans hg.2.2.1,
        hg'.2.2.2.trans hg.2.2.2⟩ (ih hrest)

theorem Thinned.find (h : Thinned gs gs') (hg' : g' ∈ gs') :
    ∃ g ∈ gs, g'.name = g.name ∧ g'.consumers = g.consumers ∧
      g'.lastDeliveredID = g.lastDeliveredID ∧ g'.pending.Sublist g.pending := by
  induction h with
  | nil => cases hg'
  | cons hg _ ih =>
    rcases mem_cons.1 hg' with rfl | hg'
    · exact ⟨_, mem_cons_self .., hg⟩
    · obtain ⟨g, hmem, hrel⟩ := ih hg'
      exact ⟨g, mem_cons_of_mem _ hmem, hrel⟩

theorem Thinned.shape (h : Thinned gs gs') : SameShape gs gs' := by
  induction h with
  | nil => rfl
  | cons hg _ ih => rw [SameShape, map_cons, map_cons, hg.1, hg.2.1, ih]

theorem thinned_set {x x' : Group} (hi : gs[i]? = some x)
    (hx : x'.name = x.name ∧ x'.consumers = x.consumers ∧
      x'.lastDeliveredID = x.lastDeliveredID ∧ x'.pending.Sublist x.pending) :
    Thinned gs (gs.set i x') := by
  induction gs generalizing i with
  | nil => cases hi
  | cons y gs ih =>
    cases i with
    | zero =>
      cases hi
      exact .cons hx (Thinned.refl gs)
    | succ i => exact .cons ⟨rfl, rfl, rfl, Sublist.refl _⟩ (ih hi)

theorem thinned_removeRefs (gs : List Group) (ids : List StreamID) :
    Thinned gs (streamRemovePendingRefs gs ids).1 := by
  rw [Thinned, streamRemovePendingRefs, forall₂_map_right_iff]
  exact forall₂_same.2 fun g _ => ⟨rfl, rfl, rfl, filter_sublist⟩

end Shape

/-! ## Entries -/

variable {a b id : StreamID}

theorem lt_of_millis (h : a.millis < b.millis) : a < b :=
  less_iff.1 (by simp [less, h])

theorem lt_of_sequence (hmillis : a.millis = b.millis)
    (h : a.sequence < b.sequence) : a < b :=
  less_iff.1 (by simp [less, hmillis, h])

theorem lt_next {last : StreamID} (h : last.sequence ≠ 0xffffffffffffffff) :
    last < ⟨last.millis, last.sequence + 1⟩ := by
  refine lt_of_sequence rfl ?_
  have hlt := last.sequence.toNat_lt
  have hne : last.sequence.toNat ≠ 2 ^ 64 - 1 := fun heq => h (UInt64.toNat.inj heq)
  rw [UInt64.lt_iff_toNat_lt, UInt64.toNat_add, UInt64.toNat_one]
  omega

theorem lt_of_next {ms : UInt64} {last : StreamID} (hms : ¬ ms < last.millis)
    (h : (if ms = last.millis then
        if last.sequence = 0xffffffffffffffff then Except.error StreamError.sequenceOverflow
        else .ok ⟨ms, last.sequence + 1⟩
      else .ok ⟨ms, if ms = 0 then 1 else 0⟩) = .ok id) : last < id := by
  split_ifs at h with heq hmax
  all_goals cases h
  · rw [heq]
    exact lt_next hmax
  all_goals
    refine lt_of_millis (UInt64.lt_of_le_of_ne (UInt64.not_lt.1 hms) fun h => heq h.symm)

/-- New ids are above all that were given out. -/
theorem lt_of_resolve {spec : AddID} {nowMS : UInt64} {last : StreamID}
    (h : resolveStreamAddID spec nowMS last = .ok id) : last < id := by
  cases spec with
  | auto =>
    refine @lt_of_next id (if nowMS < last.millis then last.millis else nowMS) last ?_ h
    split_ifs with hold
    · exact UInt64.lt_irrefl _
    · exact hold
  | millis ms =>
    by_cases hold : ms < last.millis
    · simp [resolveStreamAddID, nextPartialStreamID, hold] at h
    · rw [resolveStreamAddID, nextPartialStreamID, if_neg hold] at h
      exact lt_of_next hold h
  | exact x =>
    unfold resolveStreamAddID at h
    simp only at h
    split_ifs at h with hzero hsmall
    cases h
    by_cases hlast : last.millis = 0 ∧ last.sequence = 0
    · -- nothing was given out yet, and the id is not zero
      have hle : last ≤ id := not_lt.1 fun hlt => by
        simp [← less_iff, less, hlast] at hlt
      refine lt_of_le_of_ne hle ?_
      rintro rfl
      exact hzero hlast
    · by_contra hnot
      simp only [less_eq_decide, hnot, decide_false, Bool.not_false, Bool.true_and,
        Bool.or_eq_true, decide_eq_true_eq] at hsmall
      exact hlast ⟨not_not.1 fun h => hsmall (.inl h), not_not.1 fun h => hsmall (.inr h)⟩

variable {k : Nat} {ids : List StreamID} {plans : List TrimPlan}

section Log

variable {l₀ : Option Log} {log log' : Body} {l : Log} {added : List StreamEntry}

/-- The log lost some entries and still keeps to the journal. -/
def Body.Shrinks (l₀ : Option Log) (log' : Body) (l : Log) (added : List StreamEntry) : Prop :=
  ∃ l', log'.Keeps l₀ l' added ∧ l'.Trimmed l

section

variable (h : log.Keeps l₀ l added)

include h

theorem shrinks_self (hsound : l.Sound) : log.Shrinks l₀ l added :=
  ⟨l, h, Sublist.refl _, rfl, rfl, hsound.deleted⟩

theorem shrinks_trimFront (hsound : l.Sound) {n : Int}
    (hrun : log.trimFront n = some (log', k)) : log'.Shrinks l₀ l added := by
  obtain ⟨b, htrim, hkeeps⟩ := keeps_trimFront h n
  rw [htrim] at hrun
  cases hrun
  exact ⟨_, hkeeps, drop_sublist .., rfl, rfl, hsound.deleted⟩

theorem shrinks_delete (hsound : l.Sound) (hrun : log.delete ids = some (log', k)) :
    log'.Shrinks l₀ l added := by
  obtain ⟨b, hdel, hkeeps⟩ := keeps_delete_only h ids
  rw [hdel] at hrun
  cases hrun
  exact ⟨_, hkeeps, filter_sublist, rfl, rfl, hsound.deleted⟩

/-- A deletion with the counters set behind it. -/
theorem shrinks_deleteTo
    (hrun : log.delete ids = some (log', k)) {maxDeletedID : StreamID}
    (hle : l.maxDeletedID ≤ maxDeletedID) (hlast : maxDeletedID ≤ l.lastID)
    (hmoved : maxDeletedID = l.maxDeletedID ∨ ∃ e ∈ l.entries, e.id ∈ ids) :
    (log'.syncLog l.lastID maxDeletedID l.entriesAdded).Shrinks l₀ l added := by
  obtain ⟨b, hdel, hkeeps⟩ := keeps_delete h ids hle hmoved
  rw [hdel] at hrun
  cases hrun
  exact ⟨_, hkeeps, filter_sublist, rfl, rfl, hlast⟩

theorem shrinks_trimByOptions (hsound : l.Sound) {o : AddOptions}
    (hrun : trimByOptions log o = some log') : log'.Shrinks l₀ l added := by
  have htrim : ∀ n : Int, (if 0 < n then (log.trimFront n).map Prod.fst else some log) = some log' →
      log'.Shrinks l₀ l added := by
    intro n hn
    split_ifs at hn
    · obtain ⟨⟨b, k⟩, hb, rfl⟩ := Option.map_eq_some_iff.1 hn
      exact shrinks_trimFront h hsound hb
    · cases hn
      exact shrinks_self h hsound
  unfold trimByOptions at hrun
  split at hrun
  · exact htrim _ hrun
  · obtain ⟨n, -, hn⟩ := Option.bind_eq_some_iff.1 hrun
    refine htrim n ?_
    simpa using hn
  · cases hrun
    exact shrinks_self h hsound

theorem shrinks_applyTrimPlans (hsound : l.Sound)
    (hrun : applyTrimPlans log plans = some (log', k)) :
    log'.Shrinks l₀ l added := by
  unfold applyTrimPlans at hrun
  simp only at hrun
  split_ifs at hrun
  · cases hrun
    exact shrinks_self h hsound
  · exact shrinks_trimFront h hsound hrun
  · exact shrinks_delete h hsound hrun

theorem applyTrimPlans_some (plans : List TrimPlan) : ∃ r, applyTrimPlans log plans = some r := by
  unfold applyTrimPlans
  dsimp only
  split_ifs
  · exact ⟨_, rfl⟩
  · obtain ⟨b, htrim, -⟩ := keeps_trimFront h _
    exact ⟨_, htrim⟩
  · obtain ⟨b, hdel, -⟩ := keeps_delete_only h _
    exact ⟨_, hdel⟩

theorem keeps_stateAppend (hsound : l.Sound) {call : Call}
    {existing : Bool} {p : PackedStream} {st : State} {fields : Fields}
    (hne : fields.list ≠ []) (hlt : l.lastID < id)
    (hrun : (stateOf log l p).append call existing id fields.list = some st) :
    ∃ log', st = stateOf log' (l.append ⟨id, fields.list⟩) p ∧
      log'.Keeps l₀ (l.append ⟨id, fields.list⟩) (added ++ [⟨id, fields.list⟩]) := by
  obtain ⟨b, hb, rfl⟩ := Option.map_eq_some_iff.1 hrun
  obtain ⟨b', hb', hkeeps⟩ := keeps_append h hsound
    (if existing then call.env else { call.env with spill := none })
    (e := ⟨id, fields.list⟩) fields.fits hne hlt ((l.entriesAdded + 1) % 2 ^ 64)
  change log.append _ _ = some b at hb
  rw [hb] at hb'
  cases hb'
  exact ⟨_, rfl, hkeeps⟩

end

end Log

theorem existingIDs_of_is {log : Body} {es : List StreamEntry} (h : log.Is es)
    (ids : List StreamID) :
    existingIDs log ids = some (ids.filter fun id => es.any fun e => decide (e.id = id)) := by
  induction ids with
  | nil => rfl
  | cons id ids ih =>
    simp only [existingIDs, has_of_is h, ih, some_bind, filter_cons]

theorem laterID_eq_max (a b : StreamID) : laterID a b = max a b := by
  rw [laterID, less_eq_decide, max_def]
  by_cases h : a < b
  · rw [if_pos (by simpa using h), if_pos h.le]
  · rw [if_neg (by simpa using h)]
    split_ifs with hle
    · exact le_antisymm hle (not_lt.1 h)
    · rfl

theorem le_foldl_laterID (m : StreamID) (ids : List StreamID) : m ≤ ids.foldl laterID m := by
  induction ids generalizing m with
  | nil => exact le_refl m
  | cons id ids ih =>
    refine le_trans ?_ (ih (laterID m id))
    rw [laterID_eq_max]
    exact le_max_left m id

theorem foldl_laterID_le {m : StreamID} (hm : m ≤ b)
    (h : ∀ id ∈ ids, id ≤ b) : ids.foldl laterID m ≤ b := by
  induction ids generalizing m with
  | nil => exact hm
  | cons id ids ih =>
    refine ih ?_ fun x hx => h x (mem_cons_of_mem _ hx)
    rw [laterID_eq_max]
    exact max_le hm (h id (mem_cons_self ..))

/-- XDEL behind its search: the ids the log has go, and the last deletion moves to the largest. -/
theorem shrinks_deleteExisting {l₀ : Option Log} {log log' : Body} {l : Log}
    {added : List StreamEntry} (h : log.Keeps l₀ l added) (hsound : l.Sound)
    {existing : List StreamID} (hexisting : existingIDs log ids = some existing)
    (hne : existing ≠ []) (hrun : log.delete existing = some (log', k)) :
    (log'.syncLog log'.lastID (existing.foldl laterID log'.maxDeletedID)
      log'.entriesAdded).Shrinks l₀ l added := by
  rw [existingIDs_of_is h.shows.is, Option.some.injEq] at hexisting
  have hmem : ∀ id ∈ existing, ∃ e ∈ l.entries, e.id = id := by
    intro id hid
    rw [← hexisting] at hid
    simpa using (mem_filter.1 hid).2
  -- the deletion left the counters as they were
  obtain ⟨b, hdel, hb⟩ := keeps_delete_only h existing
  rw [hdel] at hrun
  cases hrun
  rw [hb.shows.lastID, hb.shows.maxDeletedID, hb.shows.entriesAdded]
  refine shrinks_deleteTo h hdel (le_foldl_laterID ..) ?_ ?_
  · refine foldl_laterID_le hsound.deleted fun id hid => ?_
    obtain ⟨e, he, rfl⟩ := hmem id hid
    exact hsound.bounded e he
  · obtain ⟨id, hid⟩ := exists_mem_of_ne_nil existing hne
    obtain ⟨e, he, rfl⟩ := hmem id hid
    exact .inr ⟨e, he, hid⟩

def Log.empty : Log := ⟨[], ⟨0, 0⟩, ⟨0, 0⟩, 0⟩

theorem Log.empty_sound : Log.empty.Sound :=
  ⟨Pairwise.nil, by simp [Log.empty], by simp [Log.empty], le_refl _, by decide⟩

theorem keeps_empty : ({} : Body).Keeps none Log.empty [] := ⟨rfl, Body.is_empty, rfl, rfl, rfl⟩

/-! ## Plans -/

/-- Only the groups changed, and of them only the pending entries, which got fewer. -/
def State.Thins (st st' : State) : Prop :=
  Thinned st.groups st'.groups ∧ st' = { st with groups := st'.groups }

theorem State.Thins.refl (st : State) : st.Thins st := ⟨.refl _, rfl⟩

section Plans

variable {st st' : State} {policy : RefPolicy} {changed : Bool}

variable {plan : TrimPlan}

theorem thins_finishTrimPlan {pl : Plan}
    (h : finishTrimPlan st pl policy = (plan, st', changed)) : st.Thins st' := by
  unfold finishTrimPlan at h
  by_cases hnil : pl.ids = []
  · simp only [hnil, if_true, Prod.mk.injEq] at h
    rw [← h.2.1]
    exact .refl st
  · by_cases hpolicy : policy = .delete
    · simp only [hnil, hpolicy, if_true, if_false, Prod.mk.injEq] at h
      rw [← h.2.1]
      exact ⟨thinned_removeRefs .., rfl⟩
    · simp only [hnil, hpolicy, if_false, Prod.mk.injEq] at h
      rw [← h.2.1]
      exact .refl st

theorem thins_planTrimMaxLen {maxLen limit : Int}
    (h : planTrimMaxLen st maxLen limit policy = some (plan, st', changed)) : st.Thins st' := by
  unfold planTrimMaxLen at h
  simp only at h
  split_ifs at h
  · cases h
    exact .refl st
  · obtain ⟨pl, -, hpl⟩ := Option.bind_eq_some_iff.1 h
    exact thins_finishTrimPlan (Option.some.inj hpl)

theorem thins_planTrimMinID {minID : StreamID} {limit : Int} {already : List StreamID}
    (h : planTrimMinID st minID limit policy already = some (plan, st', changed)) :
    st.Thins st' := by
  obtain ⟨pl, -, hpl⟩ := Option.bind_eq_some_iff.1 h
  exact thins_finishTrimPlan (Option.some.inj hpl)

theorem thins_planAdd {o : AddOptions}
    (h : planAdd st o policy = some (plans, st', changed)) : st.Thins st' := by
  obtain ⟨⟨byLen, st₁, changed₁⟩, h₁, h⟩ := Option.bind_eq_some_iff.1 h
  obtain ⟨⟨byID, st₂, changed₂⟩, h₂, h⟩ := Option.bind_eq_some_iff.1 h
  cases h
  have hlen : st.Thins st₁ := by
    unfold planByLen at h₁
    split at h₁
    · cases h₁
      exact .refl st
    · obtain ⟨⟨plan, st₀, changed₀⟩, hplan, hrest⟩ := Option.map_eq_some_iff.1 h₁
      cases hrest
      exact thins_planTrimMaxLen hplan
  have hid : st₁.Thins st' := by
    unfold planByID at h₂
    split at h₂
    · cases h₂
      exact .refl _
    · obtain ⟨⟨plan, st₀, changed₀⟩, hplan, hrest⟩ := Option.map_eq_some_iff.1 h₂
      cases hrest
      exact thins_planTrimMinID hplan
  refine ⟨hlen.1.trans hid.1, ?_⟩
  rw [hid.2, hlen.2]

end Plans

/-! ## XDELEX and XACKDEL -/

/-- What holds of the working state along the loops of XDELEX and XACKDEL. -/
structure Gathers (log : Body) (l : Log) (gs : List Group) (g : Gather) : Prop where
  log : g.st.log = log
  lastID : g.st.lastID = l.lastID
  entriesAdded : g.st.entriesAdded = l.entriesAdded
  thin : Thinned gs g.st.groups
  le : l.maxDeletedID ≤ g.st.maxDeletedID
  bound : g.st.maxDeletedID ≤ l.lastID
  moved : g.st.maxDeletedID = l.maxDeletedID ∨ ∃ e ∈ l.entries, e.id ∈ g.toDelete

section Gather

variable {log : Body} {l : Log} {p : PackedStream} {gs : List Group} {g : Gather}
  {policy : RefPolicy}

theorem gathers_start (hsound : l.Sound) :
    Gathers log l p.normalize.groups { st := stateOf log l p } :=
  ⟨rfl, rfl, rfl, .refl _, le_refl _, hsound.deleted, .inl rfl⟩

theorem gathers_dropRefs (h : Gathers log l gs g) (policy : RefPolicy) (id : StreamID) :
    Gathers log l gs (dropRefs policy g id).1 := by
  unfold dropRefs
  split_ifs
  · exact { h with thin := h.thin.trans (thinned_removeRefs ..) }
  · exact h

theorem gathers_settleID (h : Gathers log l gs g) (hsound : l.Sound) (policy : RefPolicy)
    (hid : ∃ e ∈ l.entries, e.id = id) :
    Gathers log l gs (settleID policy g id) := by
  obtain ⟨e, he, rfl⟩ := hid
  unfold settleID
  split_ifs
  · exact { h with }
  · exact { h with
        le := by
          simp only [laterID_eq_max]
          exact le_trans h.le (le_max_left ..)
        bound := by
          simp only [laterID_eq_max]
          exact max_le h.bound (hsound.bounded e he)
        moved := .inr ⟨e, he, by simp⟩ }

theorem gathers_ackRef (h : Gathers log l gs g) (gi : Nat) (id : StreamID) :
    Gathers log l gs (ackRef gi g id).1 := by
  unfold ackRef
  split
  · exact h
  · next group hgroup =>
      refine { h with thin := h.thin.trans (thinned_set hgroup ?_) }
      unfold streamRemoveOnePendingRef
      split
      · exact ⟨rfl, rfl, rfl, Sublist.refl _⟩
      · exact ⟨rfl, rfl, rfl, eraseIdx_sublist ..⟩

theorem has_iff (h : log.Shows l) {has : Bool} (hhas : log.has id = some has) :
    has = true ↔ ∃ e ∈ l.entries, e.id = id := by
  rw [has_of_is h.is, Option.some.injEq] at hhas
  rw [← hhas]
  simp

theorem gathers_deleteExLoop (hshows : log.Shows l) (hsound : l.Sound) (h : Gathers log l gs g)
    {g' : Gather}
    (hrun : deleteExLoop policy ids g = some g') : Gathers log l gs g' := by
  induction ids generalizing g with
  | nil =>
    cases hrun
    exact h
  | cons id ids ih =>
    obtain ⟨has, hhas, hrun⟩ := Option.bind_eq_some_iff.1 hrun
    refine ih ?_ hrun
    have hdrop := gathers_dropRefs h policy id
    split_ifs with hpresent
    · refine gathers_settleID hdrop hsound policy ?_
      rw [h.log] at hhas
      exact (has_iff hshows hhas).1 (by simpa using (Bool.and_eq_true_iff.1 hpresent).2)
    · exact { hdrop with }

theorem gathers_ackDeleteLoop (hshows : log.Shows l) (hsound : l.Sound)
    {gi : Nat} (h : Gathers log l gs g) {g' : Gather}
    (hrun : ackDeleteLoop policy gi ids g = some g') : Gathers log l gs g' := by
  induction ids generalizing g with
  | nil =>
    cases hrun
    exact h
  | cons id ids ih =>
    have hack := gathers_ackRef h gi id
    rcases hg₁ : ackRef gi g id with ⟨g₁, acked⟩
    rw [hg₁] at hack
    have hdrop := gathers_dropRefs hack policy id
    rcases hg₂ : dropRefs policy g₁ id with ⟨g₂, dropped⟩
    rw [hg₂] at hdrop
    simp only [ackDeleteLoop, hg₁, hg₂] at hrun
    obtain ⟨has, hhas, hrun⟩ := Option.bind_eq_some_iff.1 hrun
    refine ih ?_ hrun
    by_cases habsent : (decide (id ∈ g₂.toDelete) || !has) = true
    · rw [if_pos habsent]
      exact { hdrop with }
    · rw [if_neg habsent]
      refine gathers_settleID hdrop hsound policy ?_
      rw [hdrop.log] at hhas
      refine (has_iff hshows hhas).1 ?_
      simp only [Bool.or_eq_true, decide_eq_true_eq, not_or] at habsent
      simpa using habsent.2

end Gather

end Stream
end SnugKV
