import SnugKV.Stream.Course

/-!
# Group command proofs — the stream commands under a watching transaction

Every command that succeeds keeps the invariant of `Watch`, with the groups it leaves behind
evolved from those it found.

* `Works.held`, `Runs.held` — the steps of a command, and a whole command;
* `streamGroupReadKey_held` — XREADGROUP may come to one key several times in one command, so its
  lemma starts from groups that have grown already.
-/

namespace SnugKV
namespace Stream

open Lib Action

/-! ## Watched cells -/

section Held

variable {R R' : List Group → List Group → Prop} {call : Call} {start : Option Start} {c : Cell}
  {stub : Bytes} {log : Body} {expiresAt : Int64} {l : Log} {p : PackedStream}
  {added : List StreamEntry}

theorem Watched.held (h : Watched R call start c stub log expiresAt l p added) :
    Held R call start c :=
  .inr ⟨stub, log, expiresAt, l, p, added, h, trivial⟩

theorem Blank.held (h : Blank c) (hstart : start = none) : Held R call start c := .inl ⟨hstart, h⟩

theorem Watched.relate (h : Watched R call start c stub log expiresAt l p added)
    (hrel : ∀ s, start = some s → R s.groups p.normalize.groups → R' s.groups p.normalize.groups) :
    Watched R' call start c stub log expiresAt l p added :=
  { h with
    noted := by
      intro s hs
      obtain ⟨hat, hcount, item, hitem, hnoted⟩ := h.noted s hs
      exact ⟨hat, hcount, item, hitem, { hnoted with relates := hrel s hs hnoted.relates }⟩ }

/-- The groups a command works on have distinct names. -/
theorem Watched.names (h : Watched R call start c stub log expiresAt l p added) :
    (p.normalize.groups.map Group.name).Nodup := by
  rw [PackedStream.normalize, map_name_normalize]
  exact h.stored.valid.names

theorem Watched.evolve (h : Watched Eq call start c stub log expiresAt l p added) :
    Watched GroupsEvolve call start c stub log expiresAt l p added :=
  h.relate fun s _ heq => by
    rw [heq]
    exact groupsEvolve_refl h.names

theorem publish_held (h : Watched Eq call start c stub log expiresAt l p added) {st : State}
    (hlog : st.log = log) (hadded : st.entriesAdded = l.entriesAdded)
    (hgs : GroupsValid st.groups → GroupsEvolve p.normalize.groups st.groups) :
    Ensures (fun x => x = c) (publishStreamState call st) fun _ c' =>
      ∃ stub' p', Watched GroupsEvolve call start c' stub' log expiresAt l p' added := by
  refine (ensures_publish h hlog hadded fun s hs hvalid => ?_).post
    fun _ c' ⟨stub', h'⟩ => ⟨stub', _, h'⟩
  obtain ⟨-, -, item, -, hnoted⟩ := h.noted s hs
  rw [hnoted.relates]
  exact (hgs hvalid).reshape (sameShape_normalize _)

theorem create_held {st : State} (hkeeps : st.log.Keeps none l added) (hsound : l.Sound)
    (hadded : st.entriesAdded = l.entriesAdded) (hfew : l.entries.length ≤ 1)
    (hcounted : l.entries.length ≤ l.entriesAdded) :
    Ensures Blank (createStream call st) fun _ => Held R call none :=
  (ensures_create hkeeps.2 hkeeps.1 hsound hadded hfew hcounted).post fun _ _ ⟨_, h⟩ => h.held

theorem ensures_setLog {Q : Unit → Cell → Prop}
    (h : Watched R call start c stub log expiresAt l p added) {log' : Body}
    (hq : Q () { c with slot := some ⟨.stream stub log', expiresAt⟩ }) :
    Ensures (fun x => x = c) (setLog log') Q := by
  rintro x rfl
  simp only [Stream.setLog, h.slot]
  exact hq

/-! ## The steps of a command -/

def Ready (call : Call) (start : Option Start) (gs : List Group) (stage : Stage) (log : Body)
    (l : Log) (added : List StreamEntry) (c : Cell) : Prop :=
  match stage with
  | .absent => start = none ∧ Blank c
  | .stored => ∃ stub expiresAt p, Watched GroupsEvolve call start c stub log expiresAt l p added
  | _ => ∃ stub expiresAt p, Watched Eq call start c stub log expiresAt l p added ∧
      p.normalize.groups = gs ∧ (stage = .found → Quiet c added)

variable {gs : List Group} {base : Log} {stage : Stage}

section

variable (h : Ready call start gs stage log l added c)

include h

theorem Ready.loaded
    (hstage : stage = .found ∨ stage = .appended) :
    ∃ stub expiresAt p, Watched Eq call start c stub log expiresAt l p added ∧
      p.normalize.groups = gs := by
  rcases hstage with rfl | rfl
  · obtain ⟨stub, expiresAt, p, hw, hgs, -⟩ := h
    exact ⟨stub, expiresAt, p, hw, hgs⟩
  · obtain ⟨stub, expiresAt, p, hw, hgs, -⟩ := h
    exact ⟨stub, expiresAt, p, hw, hgs⟩

theorem Ready.watched (hstage : stage ≠ .absent) :
    ∃ stub expiresAt p, Watched GroupsEvolve call start c stub log expiresAt l p added := by
  by_cases hloaded : stage = .found ∨ stage = .appended
  · obtain ⟨stub, expiresAt, p, hw, -⟩ := h.loaded hloaded
    exact ⟨stub, expiresAt, p, hw.evolve⟩
  · cases stage with
    | absent => exact absurd rfl hstage
    | found => exact absurd (.inl rfl) hloaded
    | appended => exact absurd (.inr rfl) hloaded
    | stored => exact h

theorem Ready.held : Held GroupsEvolve call start c := by
  by_cases hstage : stage = .absent
  · subst hstage
    exact h.2.held h.1
  · obtain ⟨stub, expiresAt, p, hw⟩ := h.watched hstage
    exact hw.held

end

theorem Works.held {α : Type} {care : Prop} {free : Bool} {m : CellM α}
    (h : Works care free call (start.map Start.log) gs base stage log l added m) :
    Ensures (Ready call start gs stage log l added) m fun _ =>
      Held GroupsEvolve call start := by
  induction h with
  | pure a => exact Meets.pure fun _ hc => hc.held
  | fail _ => exact Meets.fail fun _ _ => trivial
  | thenPure _ b ih => exact ih.bind fun _ => Meets.pure fun _ hx => hx
  | grant st size _ _ ih => exact (admitEntry_meets st size).ensures.bind fun _ => ih
  | create hkeeps hsound hadded _ hfew hcounted _ =>
    refine Meets.given fun c hc => ?_
    obtain ⟨rfl, hblank⟩ := hc
    exact (create_held hkeeps hsound hadded hfew hcounted).pre fun x hx => hx ▸ hblank
  | append hfields hlt hkeeps hkeeps₂ ht _ ih =>
    refine Meets.given fun c hc => ?_
    obtain ⟨stub, expiresAt, p, hw, hgs, hquiet⟩ := hc
    have hw' := (hw.append (hquiet rfl) hfields hlt hkeeps).shrink hkeeps₂ ht
    refine Meets.bind (ensures_setLog hw ?_) fun _ => ih
    exact ⟨stub, expiresAt, p, hw', hgs, nofun⟩
  | publish hstage hlog hadded _ hedits _ _ ih =>
    refine Meets.given fun c hc => ?_
    obtain ⟨stub, expiresAt, p, hw, rfl⟩ := hc.loaded hstage
    refine Meets.bind (Meets.onError
      (publish_held hw hlog hadded (hedits.evolve hw.names)) fun _ _ _ => trivial) fun _ => ?_
    exact ih.pre fun c ⟨stub', p', h'⟩ => ⟨stub', expiresAt, p', h'⟩
  | shrink hstage hs =>
    refine Meets.given fun c hc => ?_
    obtain ⟨stub, expiresAt, p, hw⟩ := hc.watched hstage
    obtain ⟨l', hkeeps, ht⟩ := hs
    exact ensures_setLog hw (hw.shrink hkeeps ht).held

theorem Runs.held {α : Type} {care : Log → List Group → Prop} {free : Bool} {m : CellM α}
    (h : Runs care free call m) (hlive : ∀ s, start = some s → Live s.expiresAt call.now) :
    Ensures (HeldWith Quiet Eq call start) m fun _ => Held GroupsEvolve call start := by
  cases h with
  | fail _ => exact Meets.fail fun _ _ => trivial
  | loadLog hnone hsome =>
    refine ensures_loadLog hlive (fun hstart => ?_)
      fun c stub log expiresAt l p added hw hquiet => ?_
    · subst hstart
      have hready : ∀ x, Blank x → Ready call none [] .absent {} .empty [] x :=
        fun x hx => ⟨rfl, hx⟩
      exact hnone.held.pre hready
    · exact (hsome _ stub log l p added hw.keeps hw.sound hw.stored).held.pre fun x hx => by
        rw [hx]
        exact ⟨stub, expiresAt, p, hw, rfl, fun _ => hquiet⟩

end Held

/-! ## XREADGROUP -/

section Rules

variable {R : List Group → List Group → Prop} {call : Call} {start : Option Start} {c : Cell}
  {stub : Bytes} {log : Body} {expiresAt : Int64} {l : Log} {p : PackedStream}
  {added : List StreamEntry}

/-- The prologue of the commands that need their group. -/
theorem ensures_loadGroup {α : Type} {P : Cell → List StreamEntry → Prop} {name : Bytes}
    {k : State × Nat × Group → CellM α} {Q : α → Cell → Prop}
    (hlive : ∀ s, start = some s → Live s.expiresAt call.now)
    (hsome : ∀ c stub log expiresAt l p added gi group,
      Watched R call start c stub log expiresAt l p added → P c added →
        p.normalize.groups[gi]? = some group →
          Ensures (fun x => x = c) (k (stateOf log l p, gi, group)) Q) :
    Ensures (HeldWith P R call start) (loadGroup call.now name >>= k) Q := by
  rw [loadGroup, bind_assoc]
  refine ensures_load hlive (fun _ => ?_) fun c stub log expiresAt l p added hw hP => ?_
  · exact Meets.fail fun _ _ => trivial
  · simp only
    split
    · exact Meets.fail fun _ _ => trivial
    · next gi _ =>
        rw [bind_assoc]
        refine Meets.bind_ofOption (fun _ _ _ => trivial) fun group hgroup => ?_
        exact hsome c stub log expiresAt l p added gi group hw hP hgroup

theorem Watched.grown (h : Watched Eq call start c stub log expiresAt l p added) :
    Watched GroupsGrown call start c stub log expiresAt l p added :=
  h.relate fun _ _ heq => heq ▸ GroupsGrown.refl _

theorem Watched.evolve_of_grown
    (h : Watched GroupsGrown call start c stub log expiresAt l p added) :
    Watched GroupsEvolve call start c stub log expiresAt l p added := by
  refine h.relate fun s _ hgrown => ?_
  have hback : GroupsGrown p.normalize.groups p.groups := by
    refine ⟨(map_name_normalize _).symm, fun i g g' hg hg' => ?_⟩
    simp only [PackedStream.normalize, List.getElem?_map, hg', Option.map_some,
      Option.some.injEq] at hg
    rw [← hg]
    exact List.prefix_rfl
  exact ((hgrown.trans hback).evolve h.stored.valid).reshape (sameShape_normalize _)

theorem publishGroup_watched (h : Watched GroupsGrown call start c stub log expiresAt l p added)
    {gi : Nat} {group group' : Group} (hgi : p.normalize.groups[gi]? = some group)
    (hgroup : group.Grown group') :
    Ensures (fun x => x = c) (publishGroup call (stateOf log l p) gi group') fun _ c' =>
      ∃ stub' p', Watched GroupsGrown call start c' stub' log expiresAt l p' added := by
  refine (ensures_publish h rfl rfl fun s hs _ => ?_).post fun _ c' ⟨stub', h'⟩ => ⟨stub', _, h'⟩
  obtain ⟨-, -, item, -, hnoted⟩ := h.noted s hs
  exact (hnoted.relates.trans (groupsGrown_set hgi hgroup.1 hgroup.2)).trans
    (sameShape_normalize _).grown

end Rules

/-- One key of XREADGROUP, which may have been read in the same command before. -/
theorem streamGroupReadKey_held {call : Call} {start : Option Start}
    (hlive : ∀ s, start = some s → Live s.expiresAt call.now) (name consumer : Bytes)
    (cursor : ReadCursor) (count : Int)
    (noAck : Bool) :
    Ensures (Held GroupsGrown call start)
      (streamGroupReadKey call name consumer cursor count noAck)
      fun _ => Held GroupsGrown call start := by
  refine ensures_loadGroup hlive fun c stub log expiresAt l p added gi group hw _ hgi => ?_
  simp only
  have hfinish : ∀ (g' : Group) (entries : List StreamEntry), group.Grown g' →
      Ensures (fun x => x = c) (do
        publishGroup call (stateOf log l p) gi (if entries = [] then g' else { g' with
            consumers :=
              ensureStreamConsumer g'.consumers consumer (streamNowMillis call.now) true })
        pure entries) fun _ => Held GroupsGrown call start := by
    intro g' entries hg'
    refine Meets.bind (publishGroup_watched hw hgi ?_) fun _ =>
      Meets.pure fun _ ⟨_, _, h'⟩ => h'.held
    split_ifs
    · exact hg'
    · exact hg'.trans ⟨rfl, ensureStreamConsumer_grown ..⟩
  cases cursor with
  | new =>
    refine Meets.bind_ofOption (fun _ _ _ => trivial) fun ⟨g', entries⟩ hr => ?_
    have hensure : group.Grown { group with
        consumers := ensureStreamConsumer group.consumers consumer (streamNowMillis call.now)
          false } := ⟨rfl, ensureStreamConsumer_grown ..⟩
    exact hfinish g' entries (hensure.trans (readNew_grown hw.keeps.shows.is hr))
  | after id =>
    refine Meets.bind_ofOption (fun _ _ _ => trivial) fun ⟨pending, entries⟩ _ => ?_
    exact hfinish _ entries ⟨rfl, ensureStreamConsumer_grown ..⟩

end Stream
end SnugKV
