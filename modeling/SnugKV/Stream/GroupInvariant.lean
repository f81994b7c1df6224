import SnugKV.Stream.CommandProofs

/-!
# Group invariant — consumers and pending entries of a group

A group is orderly when no consumer and no pending id occurs twice, no time is negative and every
pending entry belongs to a consumer of the group. The packer takes orderly groups, and every edit
of the group commands keeps them orderly.

* `Group.Orderly`, `Orderly.valid`  — what the packer asks for follows;
* `Orderly.withConsumers`, `Orderly.setPending`, … — one lemma for each edit of a group;
* `readNew_spec`                    — XREADGROUP with `>` takes the first entries behind the group's
  last-delivered id, and `Orderly.deliver` says when the group takes them as pending;
* `GroupsOrderly`, `Thinned`, `GroupsAdvance` — the same for all groups of a stream.
-/

namespace SnugKV
namespace Stream

open Lib List

/-! ## Orderly groups -/

structure Group.Orderly (g : Group) : Prop where
  consumers : (g.consumers.map Consumer.name).Nodup
  times : ∀ c ∈ g.consumers, 0 ≤ c.seenAt ∧ 0 ≤ c.activeAt
  ids : (g.pending.map Pending.id).Nodup
  delivered : ∀ p ∈ g.pending, 0 ≤ p.deliveredAt
  owners : ∀ p ∈ g.pending, p.consumer ∈ g.consumers.map Consumer.name

variable {ps pending : List Pending} {g : Group} {gs : List Group}

/-- Sorted by id, without an id twice, pending entries ascend. -/
theorem ascending_sortPending (h : (ps.map Pending.id).Nodup) :
    (sortPending ps).Pairwise fun a b => a.id < b.id := by
  rw [← ((perm_sortPending ps).map _).nodup_iff, Nodup, pairwise_map] at h
  have hle : (sortPending ps).Pairwise fun a b => a.id ≤ b.id := pairwise_insertionSort _ ps
  exact (pairwise_and_iff.2 ⟨hle, h⟩).imp fun h => lt_of_le_of_ne h.1 h.2

theorem Group.Orderly.valid (h : g.Orderly) : g.Valid where
  consumers := h.consumers
  times := h.times
  ascending := ascending_sortPending h.ids
  delivered := h.delivered
  owners := fun p hp _ => h.owners p hp

theorem Group.Orderly.normalize (h : g.Orderly) : g.normalize.Orderly where
  consumers := h.consumers
  times := h.times
  ids := by
    have hperm : ((sortPending g.pending).map Pending.id).Perm (g.pending.map Pending.id) :=
      (perm_sortPending g.pending).map _
    exact hperm.nodup_iff.2 h.ids
  delivered := fun p hp => h.delivered p (mem_sortPending.1 hp)
  owners := fun p hp => h.owners p (mem_sortPending.1 hp)

structure GroupsOrderly (gs : List Group) : Prop where
  names : (gs.map Group.name).Nodup
  groups : ∀ g ∈ gs, g.Orderly

theorem GroupsOrderly.valid (h : GroupsOrderly gs) : GroupsValid gs :=
  ⟨h.names, fun g hg => (h.groups g hg).valid⟩

theorem GroupsOrderly.normalize (h : GroupsOrderly gs) :
    GroupsOrderly (gs.map Group.normalize) := by
  refine ⟨by rw [map_name_normalize]; exact h.names, fun g hg => ?_⟩
  obtain ⟨g, hmem, rfl⟩ := mem_map.1 hg
  exact (h.groups g hmem).normalize

/-! ## Consumers -/

/-- The same name, and new consumers behind the old ones at the most. -/
def Group.Grown (g g' : Group) : Prop :=
  g'.name = g.name ∧ g.consumers.map Consumer.name <+: g'.consumers.map Consumer.name

theorem Group.Grown.refl (g : Group) : g.Grown g := ⟨rfl, prefix_rfl⟩

variable {g' g'' : Group}

theorem Group.Grown.trans (h : g.Grown g') (h' : g'.Grown g'') : g.Grown g'' :=
  ⟨h'.1.trans h.1, h.2.trans h'.2⟩

theorem map_modify_eq {α β : Type} {f : α → α} {key : α → β} (hf : ∀ a, key (f a) = key a)
    (l : List α) (i : Nat) : (l.modify i f).map key = l.map key := by
  induction l generalizing i with
  | nil => simp
  | cons a l ih =>
    cases i with
    | zero => simp [hf]
    | succ i => simp [ih]

theorem ensureStreamConsumer_grown (cs : List Consumer) (name : Bytes) (nowMS : Int64)
    (active : Bool) :
    cs.map Consumer.name <+: (ensureStreamConsumer cs name nowMS active).map Consumer.name := by
  unfold ensureStreamConsumer
  split
  · rw [map_append]
    exact prefix_append ..
  · rw [map_modify_eq]
    exact fun _ => rfl

variable {cs : List Consumer} {i : Nat} {name : Bytes}

theorem mem_of_streamConsumerIndex
    (h : streamConsumerIndex cs name = some i) : ∃ c, cs[i]? = some c ∧ c.name = name := by
  obtain ⟨hi, hname, -⟩ := findIdx?_eq_some_iff_getElem.1 h
  exact ⟨cs[i], getElem?_eq_getElem hi, by simpa using hname⟩

theorem streamConsumerIndex_eq_none :
    streamConsumerIndex cs name = none ↔ name ∉ cs.map Consumer.name := by
  simp [streamConsumerIndex]

/-- The consumers behind `ensureStreamConsumer`: those there were, and the one asked for. -/
theorem ensureStreamConsumer_spec (name : Bytes) {nowMS : Int64} (active : Bool)
    (hnow : 0 ≤ nowMS) (hnodup : (cs.map Consumer.name).Nodup)
    (htimes : ∀ c ∈ cs, 0 ≤ c.seenAt ∧ 0 ≤ c.activeAt) :
    ((ensureStreamConsumer cs name nowMS active).map Consumer.name).Nodup ∧
      (∀ c ∈ ensureStreamConsumer cs name nowMS active, 0 ≤ c.seenAt ∧ 0 ≤ c.activeAt) ∧
      name ∈ (ensureStreamConsumer cs name nowMS active).map Consumer.name ∧
      ∀ n ∈ cs.map Consumer.name,
        n ∈ (ensureStreamConsumer cs name nowMS active).map Consumer.name := by
  unfold ensureStreamConsumer
  rcases hindex : streamConsumerIndex cs name with - | i
  · have hnot := streamConsumerIndex_eq_none.1 hindex
    refine ⟨?_, ?_, by simp, fun n hn => by simp [mem_map.1 hn]⟩
    · rw [map_append, map_singleton]
      refine nodup_append.2 ⟨hnodup, by simp, fun x hx y hy heq => hnot ?_⟩
      have hy' : y = name := mem_singleton.1 hy
      rw [← hy', ← heq]
      exact hx
    · exact forall_mem_append.2 ⟨htimes, forall_mem_singleton.2 ⟨hnow, hnow⟩⟩
  · obtain ⟨c₀, hget, hname⟩ := mem_of_streamConsumerIndex hindex
    let f : Consumer → Consumer := fun c =>
      { c with seenAt := nowMS, activeAt := if active then nowMS else c.activeAt }
    have hnames : (cs.modify i f).map Consumer.name = cs.map Consumer.name :=
      map_modify_eq (f := f) (fun _ => rfl) cs i
    change ((cs.modify i f).map Consumer.name).Nodup ∧ (∀ c ∈ cs.modify i f, _) ∧
      name ∈ (cs.modify i f).map Consumer.name ∧ ∀ n ∈ _, n ∈ (cs.modify i f).map Consumer.name
    rw [hnames]
    refine ⟨hnodup, fun c hc => ?_, ?_, fun n hn => hn⟩
    · obtain ⟨j, hj⟩ := mem_iff_getElem?.1 hc
      rw [getElem?_modify] at hj
      obtain ⟨c', hc', rfl⟩ := Option.map_eq_some_iff.1 hj
      have hold := htimes c' (mem_of_getElem? hc')
      split_ifs
      · refine ⟨hnow, ?_⟩
        cases active
        · exact hold.2
        · exact hnow
      · exact hold
    · exact mem_map.2 ⟨c₀, mem_of_getElem? hget, hname⟩

theorem streamNowMillis_nonneg (now : Int64) : 0 ≤ streamNowMillis now := by
  unfold streamNowMillis
  split_ifs with h
  · exact Int64.le_refl _
  · exact Int64.not_lt.1 h

/-! ## Edits of one group -/

section Edits

variable {g : Group}

section

variable (h : g.Orderly) {nowMS : Int64}

include h

/-- The same consumers or more of them. -/
theorem Group.Orderly.withConsumers (name : Bytes) (active : Bool)
    (hnow : 0 ≤ nowMS) :
    { g with consumers := ensureStreamConsumer g.consumers name nowMS active : Group }.Orderly := by
  obtain ⟨hnodup, htimes, -, hmore⟩ :=
    ensureStreamConsumer_spec name active hnow h.consumers h.times
  exact ⟨hnodup, htimes, h.ids, h.delivered, fun p hp => hmore _ (h.owners p hp)⟩

theorem mem_ensureStreamConsumer (name : Bytes) (active : Bool)
    (hnow : 0 ≤ nowMS) :
    name ∈ (ensureStreamConsumer g.consumers name nowMS active).map Consumer.name :=
  (ensureStreamConsumer_spec name active hnow h.consumers h.times).2.2.1

theorem Group.Orderly.sublist
    (hsub : pending.Sublist g.pending) : { g with pending := pending : Group }.Orderly where
  consumers := h.consumers
  times := h.times
  ids := h.ids.sublist (hsub.map _)
  delivered := fun p hp => h.delivered p (hsub.subset hp)
  owners := fun p hp => h.owners p (hsub.subset hp)

/-- A pending entry goes to `p`, which keeps its id. -/
theorem Group.Orderly.setPending {old p : Pending}
    (hold : g.pending[i]? = some old) (hid : p.id = old.id) (hdelivered : 0 ≤ p.deliveredAt)
    (howner : p.consumer ∈ g.consumers.map Consumer.name) :
    { g with pending := g.pending.set i p : Group }.Orderly where
  consumers := h.consumers
  times := h.times
  ids := by
    have hsame : (g.pending.set i p).map Pending.id = g.pending.map Pending.id := by
      obtain ⟨hi, rfl⟩ := List.getElem?_eq_some_iff.1 hold
      rw [List.map_set, hid]
      refine ext_getElem? fun j => ?_
      rw [getElem?_set]
      split_ifs with hj hlt
      · subst hj
        rw [getElem?_map, hold]
        rfl
      · subst hj
        simp [hi] at hlt
      · rfl
    rw [hsame]
    exact h.ids
  delivered := fun x hx => by
    rcases mem_or_eq_of_mem_set hx with hx | rfl
    · exact h.delivered x hx
    · exact hdelivered
  owners := fun x hx => by
    rcases mem_or_eq_of_mem_set hx with hx | rfl
    · exact h.owners x hx
    · exact howner

/-- A pending entry more, under an id of its own. -/
theorem Group.Orderly.addPending {p : Pending}
    (hfresh : p.id ∉ g.pending.map Pending.id) (hdelivered : 0 ≤ p.deliveredAt)
    (howner : p.consumer ∈ g.consumers.map Consumer.name) :
    { g with pending := g.pending ++ [p] : Group }.Orderly where
  consumers := h.consumers
  times := h.times
  ids := by
    rw [map_append, map_singleton]
    refine nodup_append.2 ⟨h.ids, by simp, fun x hx y hy heq => hfresh ?_⟩
    rw [← mem_singleton.1 hy, ← heq]
    exact hx
  delivered := fun x hx => by
    rcases mem_append.1 hx with hx | hx
    · exact h.delivered x hx
    · rw [mem_singleton.1 hx]
      exact hdelivered
  owners := fun x hx => by
    rcases mem_append.1 hx with hx | hx
    · exact h.owners x hx
    · rw [mem_singleton.1 hx]
      exact howner

end

/-- The consumer and everything it held go. -/
theorem Group.Orderly.deleteConsumer (h : g.Orderly) {consumer : Bytes} {ci : Nat}
    (hindex : streamConsumerIndex g.consumers consumer = some ci) :
    { g with
      pending := g.pending.filter fun p => p.consumer ≠ consumer
      consumers := g.consumers.eraseIdx ci : Group }.Orderly := by
  obtain ⟨c, hc, hname⟩ := mem_of_streamConsumerIndex hindex
  -- the other consumers stand at other places
  have hother : ∀ n ∈ g.consumers.map Consumer.name, n ≠ consumer →
      n ∈ (g.consumers.eraseIdx ci).map Consumer.name := by
    intro n hn hne
    obtain ⟨x, hx, rfl⟩ := mem_map.1 hn
    obtain ⟨j, hj⟩ := mem_iff_getElem?.1 hx
    refine mem_map_of_mem (mem_eraseIdx_iff_getElem?.2 ⟨j, ?_, hj⟩)
    rintro rfl
    rw [hc] at hj
    cases hj
    exact hne hname
  exact
    { consumers := h.consumers.sublist ((eraseIdx_sublist ..).map _)
      times := fun x hx => h.times x (mem_of_mem_eraseIdx hx)
      ids := h.ids.sublist (filter_sublist.map _)
      delivered := fun p hp => h.delivered p (mem_filter.1 hp).1
      owners := fun p hp => by
        obtain ⟨hmem, hne⟩ := mem_filter.1 hp
        exact hother _ (h.owners p hmem) (by simpa using hne) }

end Edits

/-! ## Claims -/

variable {log : Body}

section Claims

variable {consumer : Bytes} {nowMS deliveredAt minIdleMS : Int64}

/-- The group may get new consumers, stays orderly and stands where it stood. -/
structure Group.Tends (g g' : Group) : Prop where
  grown : g.Grown g'
  last : g'.lastDeliveredID = g.lastDeliveredID
  orderly : g.Orderly → g'.Orderly

theorem Group.Tends.refl (g : Group) : g.Tends g := ⟨.refl g, rfl, id⟩

theorem Group.Tends.trans {g : Group} (h : g.Tends g') (h' : g'.Tends g'') : g.Tends g'' :=
  ⟨h.grown.trans h'.grown, h'.last.trans h.last, fun ho => h'.orderly (h.orderly ho)⟩

variable {c c' : Claim}

theorem take_tends (h : c.group.Orderly → { c.group with
      consumers := ensureStreamConsumer c.group.consumers consumer nowMS true
      pending := pending : Group }.Orderly) (e : StreamEntry) (id : StreamID) :
    c.group.Tends (c.take consumer nowMS pending e id).group :=
  ⟨⟨rfl, ensureStreamConsumer_grown ..⟩, rfl, h⟩

section

variable (hnow : 0 ≤ nowMS) {o : ClaimOptions}

include hnow

theorem claimOne_tends (hdelivered : 0 ≤ deliveredAt) (o : ClaimOptions)
    (c : Claim) (id : StreamID) (found : Option StreamEntry) :
    c.group.Tends (claimOne consumer nowMS deliveredAt minIdleMS o c id found).group := by
  unfold claimOne
  rcases hindex : streamPendingIndex c.group.pending id with - | pi
  · cases found with
    | none => exact .refl _
    | some e =>
      simp only
      split_ifs
      · exact .refl _
      · refine take_tends (fun h => ?_) e id
        exact (h.withConsumers consumer true hnow).addPending
          (by simpa [streamPendingIndex] using hindex) hdelivered
          (mem_ensureStreamConsumer h consumer true hnow)
  · cases found with
    | none =>
      exact ⟨⟨rfl, prefix_rfl⟩, rfl, fun h => h.sublist (eraseIdx_sublist ..)⟩
    | some e =>
      rcases hp : c.group.pending[pi]? with - | p
      · simp only [hp]
        exact .refl _
      · simp only [hp]
        by_cases hidle : streamPendingIdle nowMS p < minIdleMS
        · rw [if_pos hidle]
          exact .refl _
        · rw [if_neg hidle]
          refine take_tends (fun h => ?_) e id
          exact (h.withConsumers consumer true hnow).setPending hp rfl hdelivered
            (mem_ensureStreamConsumer h consumer true hnow)

theorem claimLoop_tends (hdelivered : 0 ≤ deliveredAt)
    {ids : List StreamID}
    (h : claimLoop log consumer nowMS deliveredAt minIdleMS o ids c = some c') :
    c.group.Tends c'.group := by
  induction ids generalizing c with
  | nil =>
    cases h
    exact .refl _
  | cons id ids ih =>
    obtain ⟨found, -, h⟩ := Option.bind_eq_some_iff.1 h
    exact (claimOne_tends hnow hdelivered o c id found).trans (ih h)

theorem autoClaimLoop_tends {justID : Bool}
    {scan count i' : Nat} {deleted deleted' : List StreamID}
    (h : autoClaimLoop log consumer nowMS minIdleMS justID scan count i c deleted =
      some (c', i', deleted')) : c.group.Tends c'.group := by
  induction scan generalizing count i c deleted with
  | zero =>
    cases h
    exact .refl _
  | succ scan ih =>
    unfold autoClaimLoop at h
    split at h
    · cases h
      exact .refl _
    · next p hp =>
        by_cases hcount : count = 0
        · rw [if_pos hcount] at h
          cases h
          exact .refl _
        · rw [if_neg hcount] at h
          obtain ⟨found, -, h⟩ := Option.bind_eq_some_iff.1 h
          cases found with
          | none =>
            refine Group.Tends.trans ?_ (ih h)
            exact ⟨⟨rfl, prefix_rfl⟩, rfl, fun ho => ho.sublist (eraseIdx_sublist ..)⟩
          | some e =>
            by_cases hidle : minIdleMS ≤ streamPendingIdle nowMS p
            · simp only [if_pos hidle] at h
              refine Group.Tends.trans (take_tends (fun ho => ?_) e p.id) (ih h)
              exact (ho.withConsumers consumer true hnow).setPending hp rfl hnow
                (mem_ensureStreamConsumer ho consumer true hnow)
            · simp only [if_neg hidle] at h
              exact ih h

theorem seeConsumer_tends (g : Group) (consumer : Bytes) :
    g.Tends (seeConsumer g consumer nowMS).group := by
  unfold seeConsumer
  split
  · exact .refl g
  · next ci _ =>
      let f : Consumer → Consumer := fun c => { c with seenAt := nowMS }
      have hnames : (g.consumers.modify ci f).map Consumer.name = g.consumers.map Consumer.name :=
        map_modify_eq (f := f) (fun _ => rfl) g.consumers ci
      refine ⟨⟨rfl, by rw [hnames]⟩, rfl, fun h => ?_⟩
      refine ⟨hnames ▸ h.consumers, fun c hc => ?_, h.ids, h.delivered, fun p hp => ?_⟩
      · obtain ⟨j, hj⟩ := mem_iff_getElem?.1 hc
        rw [getElem?_modify] at hj
        obtain ⟨c', hc', rfl⟩ := Option.map_eq_some_iff.1 hj
        have hold := h.times c' (mem_of_getElem? hc')
        split_ifs
        · exact ⟨hnow, hold.2⟩
        · exact hold
      · rw [hnames]
        exact h.owners p hp

theorem claimDeliveredAt_nonneg
    (h : claimDeliveredAt nowMS o = .ok deliveredAt) : 0 ≤ deliveredAt := by
  unfold claimDeliveredAt at h
  split at h
  · cases h
  · split_ifs at h with hneg
    cases h
    exact Int64.not_lt.1 hneg
  · next idle _ _ =>
      split_ifs at h with hneg hge
      · cases h
        exact Int64.le_refl _
      · cases h
        have hidle := Int64.le_iff_toInt_le.1 (Int64.not_lt.1 hneg)
        have hlt := Int64.lt_iff_toInt_lt.1 (Int64.not_le.1 hge)
        have hmax := Int64.toInt_lt nowMS
        have hzero : (0 : Int64).toInt = 0 := rfl
        rw [Int64.le_iff_toInt_le, Int64.toInt_sub, Int.bmod_def]
        split_ifs <;> omega
  · cases h
    exact hnow

end

end Claims

/-! ## Reads -/

section Reads

variable {st : State} {consumer : Bytes} {nowMS : Int64} {noAck : Bool} {g : Group}

/-- The entries XREADGROUP has for the group: the first `count` ones it has not delivered. -/
def firstAfter (es : List StreamEntry) (last : StreamID) (count : Int) : List StreamEntry :=
  (es.filter fun e => last < e.id).take count.toNat

variable {count : Int} {es entries : List StreamEntry}

/-- A visit that gathers entries until there are `count` gathers the first of them. -/
theorem visit_deliver {acc : List StreamEntry}
    (hroom : (acc.length : Int) < count) :
    (visit (fun (r : Group × List StreamEntry) e =>
      let entries := r.2 ++ [e]
      ((deliver st consumer nowMS noAck r.1 e, entries), decide ((entries.length : Int) ≠ count)))
      (g, acc) es).1 =
      ((es.take (count.toNat - acc.length)).foldl (deliver st consumer nowMS noAck) g,
        acc ++ es.take (count.toNat - acc.length)) := by
  induction es generalizing g acc with
  | nil => simp [visit]
  | cons e es ih =>
    obtain ⟨k, hk⟩ : ∃ k, count.toNat - acc.length = k + 1 :=
      ⟨count.toNat - acc.length - 1, by omega⟩
    unfold visit
    by_cases hmore : ((acc ++ [e]).length : Int) = count
    · have hzero : k = 0 := by
        rw [length_append, length_singleton] at hmore
        omega
      have hstop : (acc.length : Int) + 1 = count := by simpa using hmore
      simp [hstop, hk, hzero]
    · have hlen : (acc ++ [e]).length = acc.length + 1 := by simp
      have hrest : count.toNat - (acc ++ [e]).length = k := by omega
      have hstep := @ih (deliver st consumer nowMS noAck g e) (acc ++ [e]) (by omega)
      rw [hrest] at hstep
      simp only [ne_eq, hmore, not_false_eq_true, decide_true, if_true]
      rw [hstep, hk]
      simp

/-- What a run of deliveries leaves in the group. -/
theorem foldl_deliver (st : State) (consumer : Bytes) (nowMS : Int64) (noAck : Bool) (g : Group)
    (es : List StreamEntry) :
    let g' := es.foldl (deliver st consumer nowMS noAck) g
    g'.consumers = g.consumers ∧
      g'.lastDeliveredID = (es.getLast?.map StreamEntry.id).getD g.lastDeliveredID ∧
      g'.pending = if noAck then g.pending
        else g.pending ++ es.map fun e => ⟨e.id, consumer, nowMS, 1⟩ := by
  induction es generalizing g with
  | nil => simp
  | cons e es ih =>
    obtain ⟨hconsumers, hlast, hpending⟩ := ih (deliver st consumer nowMS noAck g e)
    refine ⟨hconsumers, ?_, ?_⟩
    · refine hlast.trans ?_
      rw [getLast?_cons]
      cases es.getLast? <;> rfl
    · refine hpending.trans ?_
      cases noAck <;> simp [deliver]

theorem readNew_spec (h : st.log.Is es) (hcount : 0 < count)
    (hrun : readNew st consumer nowMS count noAck g = some (g', entries)) :
    entries = firstAfter es g.lastDeliveredID count ∧ g'.consumers = g.consumers ∧
      g'.lastDeliveredID = (entries.getLast?.map StreamEntry.id).getD g.lastDeliveredID ∧
      g'.pending = if noAck then g.pending
        else g.pending ++ entries.map fun e => ⟨e.id, consumer, nowMS, 1⟩ := by
  unfold readNew at hrun
  -- the counter of entries read is all that differs before the visit
  generalize hg₀ : (if g.entriesRead < 0 ∧ 0 ≤ inferStreamGroupEntriesRead st g.lastDeliveredID then
    { g with entriesRead := inferStreamGroupEntriesRead st g.lastDeliveredID } else g) = g₀ at hrun
  have hsame : g₀.consumers = g.consumers ∧ g₀.lastDeliveredID = g.lastDeliveredID ∧
      g₀.pending = g.pending := by
    rw [← hg₀]
    split_ifs <;> exact ⟨rfl, rfl, rfl⟩
  simp only [forEachFrom_of_is h, Option.some.injEq] at hrun
  rw [visit_deliver (by simpa using hcount)] at hrun
  obtain ⟨rfl, rfl⟩ := Prod.mk.inj hrun
  have htake : (fromStart g₀.lastDeliveredID false es).take
      (count.toNat - ([] : List StreamEntry).length) =
      firstAfter es g.lastDeliveredID count := by
    simp [fromStart, firstAfter, hsame.2.1]
  rw [htake, nil_append]
  obtain ⟨hconsumers, hlast, hpending⟩ :=
    foldl_deliver st consumer nowMS noAck g₀ (firstAfter es g.lastDeliveredID count)
  exact ⟨rfl, hconsumers.trans hsame.1, hlast.trans (by rw [hsame.2.1]),
    hpending.trans (by rw [hsame.2.2])⟩

/-- New entries become pending, for a consumer of the group. -/
theorem Group.Orderly.deliver (h : g.Orderly)
    (hconsumers : g'.consumers = g.consumers)
    (hpending : g'.pending = g.pending ++ es.map fun e => ⟨e.id, consumer, nowMS, 1⟩)
    (hasc : Ascending es) (hfresh : ∀ e ∈ es, e.id ∉ g.pending.map Pending.id) (hnow : 0 ≤ nowMS)
    (howner : consumer ∈ g.consumers.map Consumer.name) : g'.Orderly where
  consumers := by rw [hconsumers]; exact h.consumers
  times := by rw [hconsumers]; exact h.times
  ids := by
    have hids : g'.pending.map Pending.id = g.pending.map Pending.id ++ es.map StreamEntry.id := by
      simp [hpending, Function.comp_def]
    rw [hids]
    refine nodup_append.2 ⟨h.ids, ?_, ?_⟩
    · exact (pairwise_map.2 hasc).imp ne_of_lt
    · intro x hx y hy heq
      obtain ⟨e, he, rfl⟩ := mem_map.1 hy
      exact hfresh e he (heq ▸ hx)
  delivered := by
    intro p hp
    rw [hpending] at hp
    rcases mem_append.1 hp with hp | hp
    · exact h.delivered p hp
    · obtain ⟨e, -, rfl⟩ := mem_map.1 hp
      exact hnow
  owners := by
    intro p hp
    rw [hpending] at hp
    rw [hconsumers]
    rcases mem_append.1 hp with hp | hp
    · exact h.owners p hp
    · obtain ⟨e, -, rfl⟩ := mem_map.1 hp
      exact howner

/-- The same ids with the same owners at other times. -/
theorem Group.Orderly.retime (h : g.Orderly)
    (hsame : pending.map (fun p => (p.id, p.consumer)) = g.pending.map fun p => (p.id, p.consumer))
    (hdelivered : ∀ p ∈ pending, 0 ≤ p.deliveredAt) :
    { g with pending := pending : Group }.Orderly where
  consumers := h.consumers
  times := h.times
  ids := by
    have hids := congrArg (map Prod.fst) hsame
    simp only [map_map, Function.comp_def] at hids
    exact hids ▸ h.ids
  delivered := hdelivered
  owners := by
    intro p hp
    have howned : (p.id, p.consumer) ∈ g.pending.map fun p => (p.id, p.consumer) :=
      hsame ▸ mem_map_of_mem hp
    obtain ⟨q, hq, heq⟩ := mem_map.1 howned
    rw [← (Prod.mk.inj heq).2]
    exact h.owners q hq

theorem readPendingOf_spec {after : StreamID} {ps' : List Pending}
    {entries' : List StreamEntry} (hnow : 0 ≤ nowMS)
    (hdelivered : ∀ p ∈ ps, 0 ≤ p.deliveredAt)
    (hrun : readPendingOf log consumer after nowMS count ps entries = some (ps', entries')) :
    ps'.map (fun p => (p.id, p.consumer)) = ps.map (fun p => (p.id, p.consumer)) ∧
      ∀ p ∈ ps', 0 ≤ p.deliveredAt := by
  induction ps generalizing ps' entries with
  | nil =>
    cases hrun
    exact ⟨rfl, by simp⟩
  | cons p ps ih =>
    have htail : ∀ q ∈ ps, 0 ≤ q.deliveredAt := fun q hq =>
      hdelivered q (mem_cons_of_mem _ hq)
    have hcons : ∀ {q : Pending} {qs : List Pending}, (q.id, q.consumer) = (p.id, p.consumer) →
        0 ≤ q.deliveredAt →
        (qs.map (fun p => (p.id, p.consumer)) = ps.map (fun p => (p.id, p.consumer)) ∧
          ∀ p ∈ qs, 0 ≤ p.deliveredAt) →
        (q :: qs).map (fun p => (p.id, p.consumer)) =
            (p :: ps).map (fun p => (p.id, p.consumer)) ∧ ∀ x ∈ q :: qs, 0 ≤ x.deliveredAt :=
      fun hq htime hqs => ⟨by rw [map_cons, map_cons, hq, hqs.1], forall_mem_cons.2 ⟨htime, hqs.2⟩⟩
    unfold readPendingOf at hrun
    by_cases hskip : (decide (p.consumer ≠ consumer) || !after.less p.id) = true
    · rw [if_pos hskip] at hrun
      obtain ⟨⟨qs, es⟩, hrest, hrun⟩ := Option.bind_eq_some_iff.1 hrun
      cases hrun
      exact hcons rfl (hdelivered p (mem_cons_self ..)) (ih htail hrest)
    · rw [if_neg hskip] at hrun
      obtain ⟨found, -, hrun⟩ := Option.bind_eq_some_iff.1 hrun
      by_cases hfull : ((entries ++ [found.getD ⟨p.id, []⟩]).length : Int) = count
      · rw [if_pos hfull] at hrun
        cases hrun
        exact hcons rfl hnow ⟨rfl, htail⟩
      · rw [if_neg hfull] at hrun
        obtain ⟨⟨qs, es⟩, hrest, hrun⟩ := Option.bind_eq_some_iff.1 hrun
        cases hrun
        exact hcons rfl hnow (ih htail hrest)

end Reads

/-! ## All groups of a stream -/

/-- No group that stays moves its last-delivered id back. -/
def GroupsAdvance (gs gs' : List Group) : Prop :=
  ∀ g ∈ gs, ∀ g' ∈ gs', g.name = g'.name → g.lastDeliveredID ≤ g'.lastDeliveredID

section Lists

variable {gs gs' gs'' : List Group}

theorem GroupsAdvance.normalize (h : GroupsAdvance gs gs') :
    GroupsAdvance gs (gs'.map Group.normalize) := by
  intro g hg g' hg' hname
  obtain ⟨x, hx, rfl⟩ := mem_map.1 hg'
  exact h g hg x hx hname

theorem GroupsOrderly.sublist (h : GroupsOrderly gs) (hsub : gs'.Sublist gs) : GroupsOrderly gs' :=
  ⟨h.names.sublist (hsub.map _), fun g hg => h.groups g (hsub.subset hg)⟩

theorem GroupsOrderly.concat (h : GroupsOrderly gs) {g : Group} (hg : g.Orderly)
    (hfresh : g.name ∉ gs.map Group.name) : GroupsOrderly (gs ++ [g]) := by
  refine ⟨?_, fun x hx => ?_⟩
  · rw [map_append, map_singleton]
    refine nodup_append.2 ⟨h.names, by simp, fun x hx y hy heq => hfresh ?_⟩
    rw [← mem_singleton.1 hy, ← heq]
    exact hx
  · rcases mem_append.1 hx with hx | hx
    · exact h.groups x hx
    · rw [mem_singleton.1 hx]
      exact hg

theorem GroupsOrderly.set (h : GroupsOrderly gs) {g : Group} (hi : gs[i]? = some g)
    (hname : g'.name = g.name) (hg' : g'.Orderly) : GroupsOrderly (gs.set i g') := by
  refine ⟨by rw [map_name_set hi hname]; exact h.names, fun x hx => ?_⟩
  rcases mem_or_eq_of_mem_set hx with hx | rfl
  · exact h.groups x hx
  · exact hg'

theorem Thinned.orderly (h : Thinned gs gs') (ho : GroupsOrderly gs) : GroupsOrderly gs' := by
  refine ⟨by rw [h.shape.names]; exact ho.names, fun g' hg' => ?_⟩
  obtain ⟨g, hg, -, hconsumers, -, hsub⟩ := h.find hg'
  have hold := (ho.groups g hg).sublist hsub
  exact ⟨hconsumers ▸ hold.consumers, hconsumers ▸ hold.times, hold.ids, hold.delivered,
    hconsumers ▸ hold.owners⟩

theorem Thinned.advance (h : Thinned gs gs') (hnodup : (gs.map Group.name).Nodup) :
    GroupsAdvance gs gs' := by
  refine related_of_find hnodup fun g' hg' _ => ?_
  obtain ⟨g, hg, hname, -, hlast, -⟩ := h.find hg'
  exact ⟨g, hg, hname.symm, le_of_eq hlast.symm⟩

end Lists

end Stream
end SnugKV
