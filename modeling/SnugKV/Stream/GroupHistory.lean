import SnugKV.Lib.Run
import SnugKV.Stream.Rollback

/-!
# Group history — consumer groups over whole runs of stream commands

The commands on one key, one after the other, each of which may succeed or fail.

* `Cell.Orderly`    — the cell is well formed, and the groups it stores are orderly;
* `Tame`            — a command keeps this, whether it succeeds or fails, and does not fail over the
  metadata of groups; `Runs.tame` says so of every careful command;
* `history_orderly` — every run whose reads deliver nothing that is pending already, and whose
  claims do not set a group back.
-/

namespace SnugKV
namespace Stream

open Lib List Action

/-! ## Orderly cells -/

/-- The stream of a key outside a transaction. -/
structure Cell.Holds (c : Cell) (stub : Bytes) (log : Body) (expiresAt : Int64) (l : Log)
    (p : PackedStream) : Prop where
  eq : c = ⟨some ⟨.stream stub log, expiresAt⟩, none⟩
  keeps : log.Keeps none l []
  sound : l.Sound
  stored : Stored stub p
  orderly : GroupsOrderly p.groups

structure Cell.Orderly (c : Cell) : Prop where
  idle : c.item = none
  stream : ∀ stub log expiresAt, c.slot = some ⟨.stream stub log, expiresAt⟩ →
    ∃ l p, c.Holds stub log expiresAt l p

def Cell.groups (c : Cell) : List Group :=
  match c.slot with
  | some ⟨.stream stub _, _⟩ => ((decodePackedStream stub).map PackedStream.groups).getD []
  | _ => []

def Cell.live (now : Int64) (c : Cell) : Cell := (loadLog now c).2

theorem orderly_empty : ({} : Cell).Orderly := ⟨rfl, nofun⟩

section Holds

variable {c : Cell} {stub : Bytes} {log : Body} {expiresAt : Int64} {l : Log} {p : PackedStream}

section

variable (h : c.Holds stub log expiresAt l p)

include h

theorem Cell.Holds.to_orderly : c.Orderly := by
  refine ⟨by rw [h.eq], fun stub' log' expiresAt' hslot => ?_⟩
  rw [h.eq] at hslot
  cases hslot
  exact ⟨l, p, h⟩

theorem Cell.Holds.groups_eq : c.groups = p.normalize.groups := by
  rw [h.eq]
  simp [Cell.groups, h.stored.decode]

theorem Cell.Holds.groupsOrderly : GroupsOrderly p.normalize.groups := h.orderly.normalize

theorem Cell.Holds.setLog {log' : Body} {l' : Log}
    (hkeeps : log'.Keeps none l' []) (hsound : l'.Sound) :
    Cell.Holds ⟨some ⟨.stream stub log', expiresAt⟩, none⟩ stub log' expiresAt l' p :=
  ⟨rfl, hkeeps, hsound, h.stored, h.orderly⟩

theorem Cell.Holds.publish {st : State} {stub' : Bytes}
    (hstub : encodeStreamStub st = some stub') (hadded : st.entriesAdded < 2 ^ 64)
    (horderly : GroupsOrderly st.groups) :
    Cell.Holds ⟨some ⟨.stream stub' log, expiresAt⟩, none⟩ stub' log expiresAt l st.packed :=
  ⟨rfl, h.keeps, h.sound, stored_of_encode hstub hadded, horderly⟩

end

end Holds

variable {c : Cell}

theorem Cell.Orderly.names (h : c.Orderly) : (c.groups.map Group.name).Nodup := by
  rcases hslot : c.slot with - | ⟨v, expiresAt⟩
  · simp [Cell.groups, hslot]
  · cases v with
    | other data => simp [Cell.groups, hslot]
    | stream stub log =>
      obtain ⟨l, p, hholds⟩ := h.stream stub log expiresAt hslot
      rw [hholds.groups_eq]
      exact hholds.groupsOrderly.names

/-! ## Tame commands -/

/-- What is left behind: an orderly cell, and no group set back unless the command may do so. -/
structure Settles (free : Bool) (now : Int64) (c c' : Cell) : Prop where
  orderly : c'.Orderly
  moves : free = true ∨ GroupsAdvance (c.live now).groups c'.groups

def Tame {α : Type} (free : Bool) (now : Int64) (c : Cell) (m : CellM α) : Prop :=
  Action.Meets (fun x => x = c) m (fun _ => Settles free now c)
    fun e c' => Plain e ∧ Settles free now c c'

section Tame

variable {α : Type} {free : Bool} {now : Int64} {c : Cell} {stub : Bytes} {log : Body}
  {expiresAt : Int64} {l : Log} {p : PackedStream}

/-- Expiry leaves the cell or empties it. -/
theorem live_cases (h : c.Orderly) (now : Int64) :
    (c.live now = {} ∧ loadLog now c = (.ok none, {})) ∨
      c.live now = c ∧ (∃ data expiresAt, c.slot = some ⟨.other data, expiresAt⟩ ∧
        loadLog now c = (.error .wrongType, c)) ∨
      ∃ stub log expiresAt l p, c.Holds stub log expiresAt l p ∧ c.live now = c ∧
        loadLog now c = (.ok (some (stub, log)), c) := by
  obtain ⟨slot, item⟩ := c
  have hidle : item = none := h.idle
  subst hidle
  rcases slot with - | ⟨v, expiresAt⟩
  · exact .inl ⟨rfl, rfl⟩
  · by_cases hexpired : (Slot.mk v expiresAt).expired now = true
    · have hload : loadLog now ⟨some ⟨v, expiresAt⟩, none⟩ = (.ok none, {}) := by
        simp only [loadLog, hexpired, if_true]
        cases v <;> rfl
      exact .inl ⟨by rw [Cell.live, hload], hload⟩
    · cases v with
      | other data =>
        have hload : loadLog now ⟨some ⟨.other data, expiresAt⟩, none⟩ =
            (.error .wrongType, ⟨some ⟨.other data, expiresAt⟩, none⟩) := by
          simp only [loadLog, hexpired, if_false, Bool.false_eq_true]
        exact .inr (.inl ⟨by rw [Cell.live, hload], data, expiresAt, rfl, hload⟩)
      | stream stub log =>
        have hload : loadLog now ⟨some ⟨.stream stub log, expiresAt⟩, none⟩ =
            (.ok (some (stub, log)), ⟨some ⟨.stream stub log, expiresAt⟩, none⟩) := by
          simp only [loadLog, hexpired, if_false, Bool.false_eq_true]
        obtain ⟨l, p, hholds⟩ := h.stream stub log expiresAt rfl
        exact .inr (.inr ⟨stub, log, expiresAt, l, p, hholds, by rw [Cell.live, hload], hload⟩)

theorem groups_live (h : c.Orderly) (now : Int64) :
    (c.live now).groups = [] ∨ (c.live now).groups = c.groups := by
  rcases live_cases h now with ⟨hlive, -⟩ | ⟨hlive, -⟩ | ⟨-, -, -, -, -, -, hlive, -⟩
  · exact .inl (by rw [hlive]; rfl)
  · exact .inr (by rw [hlive])
  · exact .inr (by rw [hlive])

theorem Settles.refl (h : c.Orderly) : Settles free now c c := by
  refine ⟨h, .inr ?_⟩
  rcases groups_live h now with hnil | hsame
  · intro g hg
    rw [hnil] at hg
    cases hg
  · rw [hsame]
    exact related_of_subset h.names (fun _ => le_rfl) (Subset.refl _)

theorem settles_of_gone {c' : Cell} (hlive : c.live now = {}) (h : c'.Orderly) :
    Settles free now c c' := by
  refine ⟨h, .inr fun g hg => ?_⟩
  rw [hlive] at hg
  cases hg

theorem meets_loadLog (h : c.Orderly) {k : Option (Bytes × Body) → CellM α} {Q : α → Cell → Prop}
    {E : StreamError → Cell → Prop} (hwrong : E .wrongType c)
    (hnone : c.live now = {} → Meets (fun x => x = {}) (k none) Q E)
    (hsome : ∀ stub log expiresAt l p, c.Holds stub log expiresAt l p → c.live now = c →
      Meets (fun x => x = c) (k (some (stub, log))) Q E) :
    Meets (fun x => x = c) (loadLog now >>= k) Q E := by
  refine Meets.of_run ?_
  rintro x rfl
  rcases live_cases h now with ⟨hlive, hload⟩ | ⟨-, -, -, -, hload⟩ |
    ⟨stub, log, expiresAt, l, p, hholds, hlive, hload⟩
  · rw [bind_ok hload]
    exact ⟨fun a c' hrun => (hnone hlive).ok rfl hrun,
      fun e c' hrun => (hnone hlive).error rfl hrun⟩
  · rw [bind_error hload]
    refine ⟨nofun, ?_⟩
    rintro _ _ ⟨⟩
    exact hwrong
  · rw [bind_ok hload]
    have hmeets := hsome stub log expiresAt l p hholds hlive
    exact ⟨fun a c' hrun => hmeets.ok rfl hrun, fun e c' hrun => hmeets.error rfl hrun⟩

theorem loadStream_of_holds (h : c.Holds stub log expiresAt l p)
    (hload : loadLog now c = (.ok (some (stub, log)), c)) :
    loadStream now c = (.ok (some (stateOf log l p)), c) := by
  have hdecoded := decoded_bind h.keeps.2 h.stored (k := Pure.pure)
  rw [loadStream, bind_ok hload]
  exact congrFun hdecoded c

/-- What `loadGroup` hands to a command. -/
theorem loadGroup_ok (h : c.Orderly) {name : Bytes} {st : State} {gi : Nat} {g : Group} {c' : Cell}
    (hload : loadGroup now name c = (.ok (st, gi, g), c')) :
    ∃ stub log expiresAt l p, c.Holds stub log expiresAt l p ∧ c.live now = c ∧
      st = stateOf log l p ∧ p.normalize.groups[gi]? = some g ∧ g.name = name := by
  rcases live_cases h now with ⟨-, hl⟩ | ⟨-, -, -, -, hl⟩ |
    ⟨stub, log, expiresAt, l, p, hholds, hlive, hl⟩
  · rw [loadGroup, loadStream, bind_assoc, bind_ok hl] at hload
    cases hload
  · rw [loadGroup, loadStream, bind_assoc, bind_error hl] at hload
    cases hload
  · rw [loadGroup, bind_ok (loadStream_of_holds hholds hl)] at hload
    rcases hindex : streamGroupIndex (stateOf log l p).groups name with - | i
    · simp only [hindex] at hload
      cases hload
    · obtain ⟨hlt, hname, -⟩ := findIdx?_eq_some_iff_getElem.1 hindex
      have hget : (stateOf log l p).groups[i]? = some (stateOf log l p).groups[i] :=
        getElem?_eq_getElem hlt
      simp only [hindex, hget, ofOption] at hload
      cases hload
      exact ⟨stub, log, expiresAt, l, p, hholds, hlive, rfl, hget, by simpa using hname⟩

end Tame

/-! ## Storing -/

section Storing

variable {call : Call} {c : Cell} {stub : Bytes} {log : Body} {expiresAt : Int64} {l : Log}
  {p : PackedStream} {st : State}

/-- Groups in order are refused for their size at the most. -/
theorem plain_of_refused (hlast : st.maxDeletedID ≤ st.lastID) (horderly : GroupsOrderly st.groups)
    {e : StreamError} (he : e ∈ [.tooLarge, .outOfMemory, stubRefusal st]) : Plain e := by
  have htooLarge : stubRefusal st = .tooLarge := by
    unfold stubRefusal
    rw [if_neg (not_lt.2 hlast), if_pos horderly.valid, ite_self]
  rw [htooLarge] at he
  simp only [mem_cons, not_mem_nil, or_false] at he
  rcases he with rfl | rfl | rfl <;> decide

theorem publish_meets (h : c.Holds stub log expiresAt l p) (hlast : st.maxDeletedID ≤ st.lastID)
    (hadded : st.entriesAdded < 2 ^ 64) (horderly : GroupsOrderly st.groups) :
    Meets (fun x => x = c) (publishStreamState call st)
      (fun _ c' => ∃ stub', c'.Holds stub' log expiresAt l st.packed)
      fun e c' => Plain e ∧ c' = c := by
  have heq := h.eq
  refine (publishes call st (c := c) (by rw [heq])).imp (fun _ hx => hx) ?_ ?_
  · rintro _ c' ⟨stub', rfl, hstub, -⟩
    rw [heq]
    exact ⟨stub', h.publish hstub hadded horderly⟩
  · rintro e c' ⟨hc', he⟩
    refine ⟨plain_of_refused hlast horderly he, hc'.elim id fun hnote => ?_⟩
    rw [hnote, heq]
    rfl

theorem create_meets (hkeeps : st.log.Keeps none l []) (hsound : l.Sound)
    (hlast : st.maxDeletedID ≤ st.lastID) (hadded : st.entriesAdded < 2 ^ 64)
    (horderly : GroupsOrderly st.groups) :
    Meets (fun x => x = {}) (createStream call st) (fun _ c' => c'.Orderly)
      fun e c' => Plain e ∧ c'.Orderly := by
  refine (creates call st {}).imp (fun _ hx => hx) ?_ ?_
  · rintro _ c' ⟨stub, rfl, hstub⟩
    have hspill := spillCold_shows call.env hkeeps.2 hkeeps.1
    exact Cell.Holds.to_orderly ⟨rfl, hspill, hsound, stored_of_encode hstub hadded, horderly⟩
  · rintro e c' ⟨rfl, he⟩
    exact ⟨plain_of_refused hlast horderly he, orderly_empty⟩

theorem setLog_of_holds (h : c.Holds stub log expiresAt l p) (log' : Body) :
    setLog log' c = (.ok (), ⟨some ⟨.stream stub log', expiresAt⟩, none⟩) := by
  rw [h.eq]
  rfl

end Storing

/-! ## The steps of a command -/

/-- The cell of the key at a stage of a command that began on `c₀`. -/
def Poised (free : Bool) (now : Int64) (c₀ : Cell) (gs : List Group) (stage : Stage) (log : Body)
    (l : Log) (c : Cell) : Prop :=
  match stage with
  | .absent => c₀.live now = {} ∧ c = {}
  | .stored => ∃ stub expiresAt p, c.Holds stub log expiresAt l p ∧
      (free = true ∨ GroupsAdvance (c₀.live now).groups p.normalize.groups)
  | _ => ∃ stub expiresAt p, c.Holds stub log expiresAt l p ∧ p.normalize.groups = gs ∧
      (c₀.live now).groups = gs

section Steps

variable {α : Type} {call : Call} {free : Bool} {now : Int64} {c₀ c : Cell} {gs : List Group}
  {base : Log} {stage : Stage} {log : Body} {l : Log} {m : CellM α}

theorem Poised.loaded (h : Poised free now c₀ gs stage log l c)
    (hstage : stage = .found ∨ stage = .appended) :
    ∃ stub expiresAt p, c.Holds stub log expiresAt l p ∧ p.normalize.groups = gs ∧
      (c₀.live now).groups = gs := by
  rcases hstage with rfl | rfl
  · exact h
  · exact h

theorem Poised.holds (h : Poised free now c₀ gs stage log l c) (hstage : stage ≠ .absent) :
    ∃ stub expiresAt p, c.Holds stub log expiresAt l p ∧
      (free = true ∨ GroupsAdvance (c₀.live now).groups p.normalize.groups) := by
  by_cases hloaded : stage = .found ∨ stage = .appended
  · obtain ⟨stub, expiresAt, p, hholds, hgs, hlive⟩ := h.loaded hloaded
    refine ⟨stub, expiresAt, p, hholds, .inr ?_⟩
    rw [hlive, hgs]
    exact related_of_subset (hgs ▸ hholds.groupsOrderly.names) (fun _ => le_rfl) (Subset.refl _)
  · cases stage with
    | absent => exact absurd rfl hstage
    | found => exact absurd (.inl rfl) hloaded
    | appended => exact absurd (.inr rfl) hloaded
    | stored => exact h

theorem settles_of_holds {stub : Bytes} {expiresAt : Int64} {p : PackedStream}
    (h : c.Holds stub log expiresAt l p)
    (hmoves : free = true ∨ GroupsAdvance (c₀.live now).groups p.normalize.groups) :
    Settles free now c₀ c :=
  ⟨h.to_orderly, by rwa [h.groups_eq]⟩

theorem Poised.settles (h : Poised free now c₀ gs stage log l c) : Settles free now c₀ c := by
  by_cases hstage : stage = .absent
  · subst hstage
    obtain ⟨hlive, rfl⟩ := h
    exact settles_of_gone hlive orderly_empty
  · obtain ⟨stub, expiresAt, p, hholds, hmoves⟩ := h.holds hstage
    exact settles_of_holds hholds hmoves

theorem Works.tame {care : Prop} {added : List StreamEntry}
    (h : Works care free call none gs base stage log l added m) (hcare : care) :
    Meets (Poised free call.now c₀ gs stage log l) m (fun _ => Settles free call.now c₀)
      fun e c => Plain e ∧ Settles free call.now c₀ c := by
  induction h with
  | pure a => exact Meets.pure fun _ hc => hc.settles
  | fail he => exact Meets.fail fun _ hc => ⟨he.2, hc.settles⟩
  | thenPure _ b ih => exact ih.bind fun _ => Meets.pure fun _ hx => hx
  | grant st size _ _ ih =>
    exact ((admitEntry_meets st size).imp (fun _ hx => hx) (fun _ _ hx => hx)
      fun e c hx => ⟨hx.1, hx.2.settles⟩).bind fun _ => ih
  | create hkeeps hsound hadded hlast _ _ horderly =>
    refine Meets.given fun c hc => ?_
    obtain ⟨hlive, rfl⟩ := hc
    exact (create_meets hkeeps hsound hlast (hadded ▸ hsound.added) horderly).imp (fun _ hx => hx)
      (fun _ _ hx => settles_of_gone hlive hx) fun _ _ hx => ⟨hx.1, settles_of_gone hlive hx.2⟩
  | append hfields hlt hkeeps hkeeps₂ ht _ ih =>
    refine Meets.given fun c hc => ?_
    obtain ⟨stub, expiresAt, p, hholds, hgs, hlive⟩ := hc
    refine Meets.bind ?_ fun _ => ih
    rintro x rfl
    rw [setLog_of_holds hholds]
    have hsound := (hholds.sound.append hfields hlt).trimmed ht
    exact ⟨stub, expiresAt, p, hholds.setLog hkeeps₂ hsound, hgs, hlive⟩
  | publish hstage hlog hadded hlast hedits hundo _ ih =>
    refine Meets.given fun c hc => ?_
    obtain ⟨stub, expiresAt, p, hholds, rfl, hlive⟩ := hc.loaded hstage
    have horderly := hedits.orderly hcare hholds.groupsOrderly
    refine Meets.bind (Meets.onError
      (publish_meets hholds hlast (hadded ▸ hholds.sound.added) horderly) fun e x hx => ?_) fun _ =>
        ih.pre fun x hx => ?_
    · -- the log may have been put back, the groups are those found
      obtain ⟨he, rfl⟩ := hx
      obtain ⟨log', heq, hback, -⟩ := hundo stub expiresAt none
      obtain ⟨l', hkeeps, hsound⟩ := hback rfl
      rw [hholds.eq, heq]
      refine ⟨he, settles_of_holds (hholds.setLog hkeeps hsound) (.inr ?_)⟩
      rw [hlive]
      exact related_of_subset hholds.groupsOrderly.names (fun _ => le_rfl) (Subset.refl _)
    · obtain ⟨stub', h'⟩ := hx
      refine ⟨stub', expiresAt, _, h', (hedits.advance hcare hholds.groupsOrderly).imp_right ?_⟩
      rw [hlive]
      exact fun hadv => hadv.normalize
  | shrink hstage hs =>
    refine Meets.given fun c hc => ?_
    obtain ⟨stub, expiresAt, p, hholds, hmoves⟩ := hc.holds hstage
    obtain ⟨l', hkeeps, ht⟩ := hs
    rintro x rfl
    rw [setLog_of_holds hholds]
    exact settles_of_holds (hholds.setLog hkeeps (hholds.sound.trimmed ht)) hmoves

theorem Runs.tame {careful : Log → List Group → Prop} (h : Runs careful free call m)
    (hc : c.Orderly)
    (hcare : ∀ stub log expiresAt l p, c.Holds stub log expiresAt l p → c.live call.now = c →
      careful l p.normalize.groups) : Tame free call.now c m := by
  have hpoised : ∀ {stub log expiresAt l p}, c.Holds stub log expiresAt l p → c.live call.now = c →
      ∀ x, x = c → Poised free call.now c p.normalize.groups .found log l x := by
    rintro stub log expiresAt l p hholds hlive x rfl
    exact ⟨stub, expiresAt, p, hholds, rfl, by rw [hlive, hholds.groups_eq]⟩
  have hwrong : Plain .wrongType ∧ Settles free call.now c c := ⟨by decide, .refl hc⟩
  cases h with
  | fail he =>
    rintro x rfl
    exact ⟨he, .refl hc⟩
  | loadLog hnone hsome =>
    refine meets_loadLog hc hwrong (fun hlive => ?_) fun stub log expiresAt l p hholds hlive => ?_
    · exact (hnone.tame trivial).pre fun x hx => ⟨hlive, hx⟩
    · have hworks := hsome none stub log l p [] hholds.keeps hholds.sound hholds.stored
      exact (hworks.tame (hcare _ _ _ _ _ hholds hlive)).pre (hpoised hholds hlive)

end Steps

/-! ## Live groups -/

/-- The live group of that name with the log, as a reader sees them. -/
def Cell.liveGroup (now : Int64) (name : Bytes) (c : Cell) : Option (Log × Group) :=
  match (c.live now).view with
  | .stream l gs _ => (gs.find? fun g => g.name = name).map fun g => (l, g)
  | _ => none

theorem Cell.Holds.liveGroup_eq {call : Call} {stub : Bytes} {log : Body}
    {expiresAt : Int64} {l : Log} {p : PackedStream} (h : c.Holds stub log expiresAt l p)
    (hlive : c.live call.now = c)
    {gi : Nat} {g : Group} (hgi : p.normalize.groups[gi]? = some g) :
    c.liveGroup call.now g.name = some (l, g) := by
  have hview : c.view = .stream l p.normalize.groups expiresAt :=
    view_of_stream (by rw [h.eq]) h.keeps.2 h.stored
  have hmem := mem_of_getElem? hgi
  rw [Cell.liveGroup, hlive, hview]
  rcases hfind : p.normalize.groups.find? fun x => x.name = g.name with - | x
  · have hnot := find?_eq_none.1 hfind g hmem
    simp at hnot
  · have hname : x.name = g.name := by simpa using find?_some hfind
    rw [inj_on_of_nodup_map h.groupsOrderly.names (mem_of_find?_eq_some hfind) hmem hname] at hfind
    simp [hfind]

/-- XREADGROUP with `>` delivers the first entries behind the last-delivered id. -/
theorem streamGroupReadKey_new {call : Call} {c' : Cell} (h : c.Orderly) {name consumer : Bytes}
    {count : Int} (hcount : 0 < count) {noAck : Bool} {entries : List StreamEntry}
    (hrun : streamGroupReadKey call name consumer .new count noAck c = (.ok entries, c')) :
    ∃ x ∈ c.liveGroup call.now name,
      entries = firstAfter x.1.entries x.2.lastDeliveredID count := by
  obtain ⟨⟨st, gi, g⟩, c₁, hload, hrest⟩ := bind_eq_ok.1 hrun
  obtain ⟨stub, log, expiresAt, l, p, hholds, hlive, rfl, hgi, rfl⟩ := loadGroup_ok h hload
  obtain ⟨⟨g', es⟩, c₂, hread, hrest⟩ := bind_eq_ok.1 hrest
  obtain ⟨-, c₃, -, hpure⟩ := bind_eq_ok.1 hrest
  cases hpure
  rcases hnew : readNew (stateOf log l p) consumer (streamNowMillis call.now) count noAck { g with
      consumers := ensureStreamConsumer g.consumers consumer (streamNowMillis call.now) false }
    with - | r
  · rw [hnew] at hread
    cases hread
  · rw [hnew] at hread
    cases hread
    exact ⟨(l, g), hholds.liveGroup_eq hlive hgi, (readNew_spec hholds.keeps.2.is hcount hnew).1⟩

/-! ## Histories -/

/-- The commands on one key; XREADGROUP reads its keys one after the other. -/
inductive HistoryCommand where
  | key (cmd : KeyCommand)
  | groupRead (group consumer : Bytes) (cursor : ReadCursor) (count : Int) (noAck : Bool)

def HistoryCommand.run (call : Call) : HistoryCommand → CellM Unit
  | .key cmd => cmd.run call
  | .groupRead group consumer cursor count noAck =>
    if count ≤ 0 then Action.fail .count
    else discard (streamGroupReadKey call group consumer cursor count noAck)

/-- XGROUP SETID is the command that may set a group back. -/
def HistoryCommand.setsID : HistoryCommand → Bool
  | .key (.groupSetID ..) => true
  | _ => false

def happen (c : Cell) (e : Call × HistoryCommand) : Option Cell := some (e.2.run e.1 c).2

/-- XREADGROUP finds nothing pending among the entries it is about to deliver, and XCLAIM LASTID
does not name an id below the one the group has reached. -/
def Careful (c : Cell) : Call × HistoryCommand → Prop
  | (call, .groupRead group _ .new count false) =>
    ∀ x ∈ c.liveGroup call.now group, ∀ e ∈ firstAfter x.1.entries x.2.lastDeliveredID count,
      e.id ∉ x.2.pending.map Pending.id
  | (call, .key (.groupClaim group _ _ _ o)) =>
    ∀ x ∈ c.liveGroup call.now group, ∀ id ∈ o.lastID, x.2.lastDeliveredID ≤ id
  | _ => True

/-- What every command promises about groups. -/
structure Proper (c : Cell) (e : Call × HistoryCommand) : Prop where
  /-- Nothing fails over the metadata of groups, neither storing nor decoding. -/
  plain : ∀ err, (e.2.run e.1 c).1 = .error err → err ≠ .notPackable ∧ err ≠ .corrupt
  decodes : ∀ stub log expiresAt, (e.2.run e.1 c).2.slot = some ⟨.stream stub log, expiresAt⟩ →
    (decodePackedStream stub).isSome = true
  ascending : ∀ g ∈ (e.2.run e.1 c).2.groups, g.pending.Pairwise fun a b => a.id < b.id
  owned : ∀ g ∈ (e.2.run e.1 c).2.groups, ∀ p ∈ g.pending,
    p.consumer ∈ g.consumers.map Consumer.name
  /-- XREADGROUP with `>` delivers the first entries behind the last-delivered id. -/
  delivers : ∀ group consumer count noAck, e.2 = .groupRead group consumer .new count noAck →
    0 < count → ∀ entries c',
      streamGroupReadKey e.1 group consumer .new count noAck c = (.ok entries, c') →
        ∃ x ∈ c.liveGroup e.1.now group,
          entries = firstAfter x.1.entries x.2.lastDeliveredID count
  forward : e.2.setsID = false → GroupsAdvance (c.live e.1.now).groups (e.2.run e.1 c).2.groups

variable {e : Call × HistoryCommand}

theorem run_tame (h : c.Orderly) (hcare : Careful c e) :
    Tame e.2.setsID e.1.now c (e.2.run e.1) := by
  obtain ⟨call, cmd⟩ := e
  cases cmd with
  | key cmd =>
    have hfree : (HistoryCommand.key cmd).setsID = cmd.setsID := by cases cmd <;> rfl
    rw [hfree]
    refine (run_runs call cmd).tame h fun stub log expiresAt l p hholds hlive => ?_
    cases cmd with
    | groupClaim name consumer minIdleMS ids o =>
      rintro g hg rfl
      obtain ⟨gi, hgi⟩ := mem_iff_getElem?.1 hg
      exact hcare (l, g) (hholds.liveGroup_eq hlive hgi)
    | _ => exact trivial
  | groupRead name consumer cursor count noAck =>
    rw [HistoryCommand.run]
    split_ifs with hcount
    · rintro x rfl
      exact ⟨by decide, .refl h⟩
    refine ((streamGroupReadKey_runs name consumer cursor (not_le.1 hcount) noAck).tame h
      fun stub log expiresAt l p hholds hlive => ?_).discard
    rintro rfl rfl g hg rfl
    obtain ⟨gi, hgi⟩ := mem_iff_getElem?.1 hg
    exact hcare (l, g) (hholds.liveGroup_eq hlive hgi)

theorem Settles.of_run
    (h : Tame e.2.setsID e.1.now c (e.2.run e.1)) :
    Settles e.2.setsID e.1.now c (e.2.run e.1 c).2 := by
  rcases hrun : e.2.run e.1 c with ⟨err | a, c'⟩
  · exact (h.error rfl hrun).2
  · exact h.ok rfl hrun

theorem orderly_groups (h : c.Orderly) : ∀ g ∈ c.groups,
    (g.pending.Pairwise fun a b => a.id < b.id) ∧
      ∀ p ∈ g.pending, p.consumer ∈ g.consumers.map Consumer.name := by
  intro g hg
  rcases hslot : c.slot with - | ⟨v, expiresAt⟩
  · simp [Cell.groups, hslot] at hg
  · cases v with
    | other data => simp [Cell.groups, hslot] at hg
    | stream stub log =>
      obtain ⟨l, p, hholds⟩ := h.stream stub log expiresAt hslot
      rw [hholds.groups_eq] at hg
      refine ⟨?_, (hholds.groupsOrderly.groups g hg).owners⟩
      -- what was decoded is sorted
      obtain ⟨g₀, hg₀, rfl⟩ := mem_map.1 hg
      exact ascending_sortPending (hholds.orderly.groups g₀ hg₀).ids

theorem proper_of_careful (h : c.Orderly) (hcare : Careful c e) : Proper c e := by
  have htame := run_tame h hcare
  have hsettles := Settles.of_run htame
  refine ⟨fun err hrun => ?_, fun stub log expiresAt hslot => ?_, fun g hg => ?_, fun g hg => ?_,
    ?_, fun hset => ?_⟩
  · exact (htame.error rfl (Prod.ext hrun rfl)).1
  · obtain ⟨l, p, hholds⟩ := hsettles.orderly.stream stub log expiresAt hslot
    rw [hholds.stored.decode]
    rfl
  · exact (orderly_groups hsettles.orderly g hg).1
  · exact (orderly_groups hsettles.orderly g hg).2
  · intro group consumer count noAck hcmd hcount entries c' hrun
    obtain ⟨call, cmd⟩ := e
    have hcmd' : cmd = .groupRead group consumer .new count noAck := hcmd
    exact streamGroupReadKey_new h hcount hrun
  · rcases hsettles.moves with hfree | hadvance
    · rw [hset] at hfree
      cases hfree
    · exact hadvance

/-- Pending entries stay unique, ascending and owned, nothing fails over the metadata of groups,
XREADGROUP delivers what comes next, and only XGROUP SETID sets a group back. -/
theorem history_orderly (es : List (Call × HistoryCommand)) (h : Along happen Careful {} es) :
    Along happen Proper {} es := by
  refine along_of_preserves (I := Cell.Orderly) ?_ (fun c e hc hcare => proper_of_careful hc hcare)
    orderly_empty h
  rintro c e _ hc hcare ⟨⟩
  exact (Settles.of_run (run_tame hc hcare)).orderly

/-! ## Two careless histories -/

theorem oneField_fits : let fs : List StreamField := [⟨[102], [118]⟩]
    fs.length < 2 ^ 63 ∧ ∀ f ∈ fs, f.Fits := by
  simp [StreamField.Fits]

/-- XGROUP CREATE k g 0 MKSTREAM, XADD k 1-1 f v, XREADGROUP GROUP g c STREAMS k > -/
def readOnce : List (Call × HistoryCommand) :=
  [(freeCall 20, .key (.groupCreate [103] (.exact ⟨0, 0⟩) true (-1))),
    (freeCall 20, .key (.add (.exact ⟨1, 1⟩) ⟨[⟨[102], [118]⟩], oneField_fits⟩ {})),
    (freeCall 20, .groupRead [103] [99] .new 1 false)]

/-- XGROUP SETID k g 0, XREADGROUP GROUP g c STREAMS k > -/
def readTwice : List (Call × HistoryCommand) :=
  readOnce ++ [(freeCall 20, .key (.groupSetID [103] (.exact ⟨0, 0⟩) none)),
    (freeCall 20, .groupRead [103] [99] .new 1 false)]

/-- XCLAIM k g c 0 1-1 LASTID 0-0 -/
def claimBack : List (Call × HistoryCommand) :=
  readOnce ++
    [(freeCall 20, .key (.groupClaim [103] [99] 0 [⟨1, 1⟩] { lastID := some ⟨0, 0⟩ }))]

/-- The cell behind the first commands of a history. -/
def behindAll (es : List (Call × HistoryCommand)) : Cell := ((run happen {} es).getD {})

theorem history_orderly_readOnce :
    Along happen Careful {} readOnce ∧ Along happen Proper {} readOnce := by
  have hcare : Along happen Careful {} readOnce := by
    refine ⟨trivial, ?_⟩
    rintro _ ⟨⟩
    refine ⟨trivial, ?_⟩
    rintro _ ⟨⟩
    refine ⟨?_, fun _ _ => trivial⟩
    change ∀ x ∈ (behindAll (readOnce.take 2)).liveGroup 20 [103],
      ∀ e ∈ firstAfter x.1.entries x.2.lastDeliveredID 1, e.id ∉ x.2.pending.map Pending.id
    decide +kernel
  exact ⟨hcare, history_orderly readOnce hcare⟩

/-- The second read is refused over the pending entry, and the claim sets the group back. -/
theorem history_careless :
    ¬ Along happen Proper {} readTwice ∧ ¬ Along happen Proper {} claimBack := by
  have hread : ((HistoryCommand.groupRead [103] [99] .new 1 false).run (freeCall 20)
      (behindAll (readTwice.take 4))).1 = .error .notPackable := by decide +kernel
  have hclaim : ¬ GroupsAdvance ((behindAll readOnce).live 20).groups
      (behindAll claimBack).groups := by
    unfold GroupsAdvance
    decide +kernel
  constructor
  · intro h
    have hlast := ((((h.2 _ rfl).2 _ rfl).2 _ rfl).2 _ rfl).1
    exact (hlast.plain _ hread).1 rfl
  · intro h
    have hlast := (((h.2 _ rfl).2 _ rfl).2 _ rfl).1
    exact hclaim (hlast.forward rfl)

end Stream
end SnugKV
