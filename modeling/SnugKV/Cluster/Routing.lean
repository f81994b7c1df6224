import SnugKV.Cluster.Topology
import SnugKV.Lib.Run

/-!
# Routing — where a command is executed while its slot moves

A node decides from its slot tables, and from which keys it holds, whether it executes a command
or sends the client elsewhere (`enforceClusterRouting`). While a slot moves, the owner has it
marked as migrating and the target as importing:

* the owner executes a command, except that a command on one key it does not hold is answered
  with `ASK`;
* the target executes a command only if the client announced it with `ASKING`.

`Migration` has the two nodes, the clients' commands in any interleaving, and the migration of
single keys. Routing is decided before the node's command lock is taken, so a command may be
executed later than it was routed.
-/

namespace SnugKV
namespace Cluster

open Lib List

/-! ## The decision -/

inductive RouteError where
  /-- `CROSSSLOT Keys in request don't hash to the same slot` -/
  | crossSlot
  /-- `CLUSTERDOWN Hash slot not served` -/
  | clusterDown
  | moved (slot : Slot) (addr : Addr)
  | ask (slot : Slot) (addr : Addr)
  deriving DecidableEq, Repr

/-- `enforceClusterRoutingForClientMode` for a command with keys `keys`. `master` is the upstream
of a node in replica role, `present` says which keys the node holds. -/
def enforceClusterRouting (t : Topology) (master : Option Addr) (present : Bytes → Bool)
    (asking : Bool) (keys : List Bytes) : Except RouteError Unit :=
  if !t.enabled then .ok ()
  else
    match keys with
    | [] => .ok ()
    | k :: rest =>
      let slot := clusterKeySlot k
      if rest.any fun k' => clusterKeySlot k' != slot then .error .crossSlot
      else if t.owners slot = [] then .error .clusterDown
      else if t.owners slot = t.nodeAddr then
        match master with
        | some addr => .error (.moved slot addr)
        | none =>
          if t.migrating slot ≠ [] ∧ rest = [] ∧ present k = false then
            .error (.ask slot (t.migrating slot))
          else .ok ()
      else if t.importing slot ≠ [] ∧ asking = true then .ok ()
      else .error (.moved slot (t.owners slot))

/-! ## Commands -/

/-- What a node's store says about the keys of the slot. -/
abbrev Keyspace (V : Type) := Bytes → Option V

/-- A client command on keys of one slot: it reads and writes the keys it names and no other. -/
structure Command (V R : Type) (slot : Slot) where
  keys : List Bytes
  run : Keyspace V → Keyspace V
  reply : Keyspace V → R
  /-- Routing is decided once more under the command lock. -/
  rechecked : Bool
  inSlot : ∀ k ∈ keys, clusterKeySlot k = slot
  frame : ∀ st k, k ∉ keys → run st k = st k
  reads : ∀ st st', (∀ k ∈ keys, st k = st' k) →
    reply st = reply st' ∧ ∀ k ∈ keys, run st k = run st' k

/-- The tables of the two nodes while the slot moves. -/
structure Moving (slot : Slot) (source target : Topology) : Prop where
  sourceEnabled : source.enabled = true
  targetEnabled : target.enabled = true
  owned : source.owners slot = source.nodeAddr
  named : source.nodeAddr ≠ []
  migrating : source.migrating slot ≠ []
  known : target.owners slot = source.nodeAddr
  distinct : source.nodeAddr ≠ target.nodeAddr
  importing : target.importing slot ≠ []

/-! ## The two nodes -/

variable {V R : Type} {slot : Slot}

structure Migration (V R : Type) (slot : Slot) where
  /-- The keys at the owner. -/
  home : Keyspace V
  /-- The keys at the target. -/
  away : Keyspace V
  /-- Routed by the owner, not executed yet. -/
  waiting : List (Command V R slot)
  /-- Answered with `ASK`: the client will announce the command to the target. -/
  asked : List (Command V R slot)
  /-- Routed by the target, not executed yet. -/
  waitingAway : List (Command V R slot)
  /-- The key whose `MIGRATE` holds the owner's command lock. -/
  moving : Option Bytes
  /-- The executed commands with their answers. -/
  log : List (Command V R slot × R)

inductive Event (V R : Type) (slot : Slot) where
  /-- A client sends a command to the owner. -/
  | arrive (c : Command V R slot)
  /-- A client follows its `ASK`. -/
  | follow (i : Nat)
  | execute (i : Nat)
  | executeAway (i : Nat)
  /-- `MIGRATE`: the target carries out `RESTORE-ASKING`. -/
  | restore (key : Bytes) (replace : Bool)
  /-- The target's answer arrives and the owner deletes the key. -/
  | forget
  /-- The target's answer is lost. -/
  | giveUp

def present (st : Keyspace V) (k : Bytes) : Bool := (st k).isSome

namespace Migration

variable (source target : Topology)

def routeHome (s : Migration V R slot) (c : Command V R slot) : Except RouteError Unit :=
  enforceClusterRouting source none (present s.home) false c.keys

def routeAway (s : Migration V R slot) (asking : Bool) (c : Command V R slot) :
    Except RouteError Unit :=
  enforceClusterRouting target none (present s.away) asking c.keys

/-- The client of a command that was sent elsewhere: only an `ASK` is followed to the target. -/
def redirect (s : Migration V R slot) (c : Command V R slot) : RouteError → Migration V R slot
  | .ask _ _ => { s with asked := s.asked ++ [c] }
  | _ => s

def step (s : Migration V R slot) : Event V R slot → Option (Migration V R slot)
  | .arrive c =>
    match s.routeHome source c with
    | .ok () => some { s with waiting := s.waiting ++ [c] }
    | .error e => some (s.redirect c e)
  | .follow i =>
    match s.asked[i]? with
    | none => none
    | some c =>
      let s := { s with asked := s.asked.eraseIdx i }
      match s.routeAway target true c with
      | .ok () => some { s with waitingAway := s.waitingAway ++ [c] }
      | .error _ => some s
  | .execute i =>
    match s.waiting[i]?, s.moving with
    | some c, none =>
      let s := { s with waiting := s.waiting.eraseIdx i }
      match if c.rechecked then s.routeHome source c else .ok () with
      | .ok () => some { s with home := c.run s.home, log := s.log ++ [(c, c.reply s.home)] }
      | .error e => some (s.redirect c e)
    | _, _ => none
  | .executeAway i =>
    match s.waitingAway[i]? with
    | none => none
    | some c =>
      let s := { s with waitingAway := s.waitingAway.eraseIdx i }
      -- the announcement was used up when the command was routed
      match if c.rechecked then s.routeAway target false c else .ok () with
      | .ok () => some { s with away := c.run s.away, log := s.log ++ [(c, c.reply s.away)] }
      | .error _ => some s
  | .restore key replace =>
    match s.moving, s.home key with
    | none, some v =>
      if (s.away key).isSome ∧ replace = false then some s
      else some { s with away := Function.update s.away key (some v), moving := some key }
    | _, _ => none
  | .forget =>
    match s.moving with
    | none => none
    | some key => some { s with home := Function.update s.home key none, moving := none }
  | .giveUp =>
    match s.moving with
    | none => none
    | some _ => some { s with moving := none }

/-- The condition on an event: the answer of the target is not lost, and a command is executed
by the owner only while the routing decision still stands, and with several keys only if the
owner holds all of them. -/
def Careful (s : Migration V R slot) : Event V R slot → Prop
  | .giveUp => False
  | .execute i => ∀ c, s.waiting[i]? = some c →
      (c.rechecked = false → s.routeHome source c = .ok ()) ∧
        (c.keys.length ≤ 1 ∨ ∀ k ∈ c.keys, s.home k ≠ none)
  | _ => True

/-- Each key is at one of the nodes, except while its own `MIGRATE` is under way. -/
def SingleHome (s : Migration V R slot) : Prop :=
  ∀ k, s.home k ≠ none → s.away k ≠ none → s.moving = some k

/-- The key space a client of both nodes sees. -/
def view (s : Migration V R slot) : Keyspace V := fun k => (s.home k).or (s.away k)

/-- One store that starts with `st` gives the answers of the log and ends with `st'`. -/
def Explains : Keyspace V → List (Command V R slot × R) → Keyspace V → Prop
  | st, [], st' => st' = st
  | st, (c, r) :: log, st' => r = c.reply st ∧ Explains (c.run st) log st'

/-- A slot whose migration begins: nothing is on its way to the target. -/
structure Start (s : Migration V R slot) : Prop where
  single : s.SingleHome
  asked : s.asked = []
  waitingAway : s.waitingAway = []
  moving : s.moving = none
  log : s.log = []

end Migration

/-! ## What routing guarantees -/

section

variable {source target : Topology} {s s' : Migration V R slot} {c : Command V R slot}

section

variable (hm : Moving slot source target)

include hm

theorem enforceClusterRouting_owned {st : Keyspace V}
    (hin : ∀ k ∈ c.keys, clusterKeySlot k = slot) :
    enforceClusterRouting source none (present st) false c.keys = match c.keys with
      | [k] => if st k = none then .error (.ask slot (source.migrating slot)) else .ok ()
      | _ => .ok () := by
  rcases hk : c.keys with _ | ⟨k, rest⟩
  · simp [enforceClusterRouting]
  · rw [hk] at hin
    have hslot : clusterKeySlot k = slot := hin k mem_cons_self
    have hsame : (rest.any fun k' => clusterKeySlot k' != slot) = false := by
      simp only [any_eq_false, bne_iff_ne, ne_eq, not_not]
      exact fun k' hk' => hin k' (mem_cons_of_mem _ hk')
    simp only [enforceClusterRouting, hm.sourceEnabled, Bool.not_true, Bool.false_eq_true,
      if_false, hslot, hsame, hm.owned, if_neg hm.named, if_true, present]
    rcases rest with _ | ⟨k', rest⟩
    · rcases hv : st k with _ | v
      · simp [hm.migrating, hv]
      · simp [hv]
    · simp

theorem Migration.present_of_routeHome
    (h : s.routeHome source c = .ok ()) (hlen : c.keys.length ≤ 1) :
    ∀ k ∈ c.keys, s.home k ≠ none := by
  rw [Migration.routeHome, enforceClusterRouting_owned hm c.inSlot] at h
  rcases hk : c.keys with _ | ⟨k, _ | ⟨k', rest⟩⟩
  · exact fun k hmem => absurd hmem not_mem_nil
  · intro k₁ hmem
    obtain rfl := mem_singleton.1 hmem
    rw [hk] at h
    intro hnone
    simp [hnone] at h
  · rw [hk] at hlen
    simp at hlen

theorem Migration.absent_of_ask {e : RouteError}
    (h : s.routeHome source c = .error e) : ∃ k, c.keys = [k] ∧ s.home k = none := by
  rw [Migration.routeHome, enforceClusterRouting_owned hm c.inSlot] at h
  rcases hk : c.keys with _ | ⟨k, _ | ⟨k', rest⟩⟩
  · rw [hk] at h
    cases h
  · rw [hk] at h
    refine ⟨k, rfl, ?_⟩
    by_contra hsome
    simp [hsome] at h
  · rw [hk] at h
    cases h

end

end

/-! ## The invariant -/

namespace Migration

/-- What holds after every careful event, for clients that saw `st₀` when the slot began to
move. -/
structure Sound (st₀ : Keyspace V) (s : Migration V R slot) : Prop where
  /-- A key at both nodes is the one that is being moved. -/
  single : s.SingleHome
  /-- The key that is being moved is at both, with one value. -/
  copied : ∀ k, s.moving = some k → s.home k ≠ none ∧ s.away k = s.home k
  /-- The target is asked only for keys that the owner does not hold. -/
  asked : ∀ c ∈ s.asked ++ s.waitingAway, ∃ k, c.keys = [k] ∧ s.home k = none
  explained : Explains st₀ s.log s.view

section

variable {source target : Topology} {st₀ : Keyspace V} {s s' : Migration V R slot}
  {c : Command V R slot}

variable {log : List (Command V R slot × R)}

theorem Explains.append {st st' : Keyspace V} (h : Explains st log st') (c : Command V R slot) :
    Explains st (log ++ [(c, c.reply st')]) (c.run st') := by
  induction log generalizing st with
  | nil =>
    cases h
    exact ⟨rfl, rfl⟩
  | cons x log ih => exact ⟨h.1, ih h.2⟩

theorem Explains.run {st st' next : Keyspace V} {r : R} (h : Explains st log st')
    (hr : r = c.reply st') (hn : next = c.run st') : Explains st (log ++ [(c, r)]) next := by
  subst hr hn
  exact h.append c

theorem Explains.congr {st st' next : Keyspace V} (h : Explains st log st')
    (hn : ∀ k, next k = st' k) : Explains st log next := by
  rwa [funext hn]

theorem view_of_home {k : Bytes} (h : s.home k ≠ none) : s.view k = s.home k := by
  rcases hv : s.home k with _ | v
  · exact absurd hv h
  · simp [view, hv]

/-! ## One event -/

theorem Sound.redirect (h : Sound st₀ s) (hm : Moving slot source target) {e : RouteError}
    (hroute : s.routeHome source c = .error e) : Sound st₀ (s.redirect c e) := by
  cases e with
  | ask sl addr =>
    refine ⟨h.single, h.copied, fun c' hc' => ?_, h.explained⟩
    have hcases : c' ∈ s.asked ++ s.waitingAway ∨ c' = c := by
      simp only [Migration.redirect, mem_append, mem_singleton] at hc' ⊢
      tauto
    rcases hcases with hin | rfl
    · exact h.asked c' hin
    · exact absent_of_ask hm hroute
  | _ => exact h

theorem Sound.arrive (h : Sound st₀ s) (hm : Moving slot source target)
    (hs : s.step source target (.arrive c) = some s') : Sound st₀ s' := by
  simp only [step] at hs
  split at hs
  · cases hs
    exact ⟨h.single, h.copied, h.asked, h.explained⟩
  · cases hs
    exact h.redirect hm ‹_›

theorem Sound.follow (h : Sound st₀ s) {i : Nat}
    (hs : s.step source target (.follow i) = some s') : Sound st₀ s' := by
  simp only [step] at hs
  split at hs
  · cases hs
  · rename_i c hc
    have hmem : c ∈ s.asked := mem_of_getElem? hc
    have hkept : ∀ c' ∈ s.asked.eraseIdx i ++ s.waitingAway ++ [c],
        ∃ k, c'.keys = [k] ∧ s.home k = none := by
      intro c' hc'
      rw [mem_append, mem_append, mem_singleton] at hc'
      rcases hc' with (hin | hin) | rfl
      · exact h.asked c' (mem_append_left _ (mem_of_mem_eraseIdx hin))
      · exact h.asked c' (mem_append_right _ hin)
      · exact h.asked c' (mem_append_left _ hmem)
    split at hs
    · cases hs
      exact ⟨h.single, h.copied, fun c' hc' => hkept c' (by simpa using hc'), h.explained⟩
    · cases hs
      exact ⟨h.single, h.copied, fun c' hc' => hkept c' (mem_append_left _ hc'), h.explained⟩

theorem present_of_careful (hm : Moving slot source target) {i : Nat}
    (hcare : s.Careful source (.execute i)) (hc : s.waiting[i]? = some c)
    (hchecked : c.rechecked = true → s.routeHome source c = .ok ()) :
    ∀ k ∈ c.keys, s.home k ≠ none := by
  obtain ⟨hroute, hkeys⟩ := hcare c hc
  rcases hkeys with hlen | hall
  · refine present_of_routeHome hm ?_ hlen
    rcases hr : c.rechecked with _ | _
    · exact hroute hr
    · exact hchecked hr
  · exact hall

section

variable (h : Sound st₀ s)

include h

theorem Sound.runHome (hidle : s.moving = none)
    (hhere : ∀ k ∈ c.keys, s.home k ≠ none) {w : List (Command V R slot)} :
    Sound st₀ { s with
      waiting := w, home := c.run s.home, log := s.log ++ [(c, c.reply s.home)] } := by
  have hagree : ∀ k ∈ c.keys, s.home k = s.view k := fun k hk => (view_of_home (hhere k hk)).symm
  obtain ⟨hreply, hrun⟩ := c.reads s.home s.view hagree
  have haway : ∀ k ∈ c.keys, s.away k = none := by
    intro k hk
    by_contra hsome
    have hmoving := h.single k (hhere k hk) hsome
    rw [hidle] at hmoving
    cases hmoving
  refine ⟨fun k hhome hsome => ?_, fun k hk => ?_, fun c' hc' => ?_, ?_⟩
  · by_cases hk : k ∈ c.keys
    · exact absurd (haway k hk) hsome
    · have hbefore : c.run s.home k ≠ none := hhome
      rw [c.frame s.home k hk] at hbefore
      exact h.single k hbefore hsome
  · rw [hidle] at hk
    cases hk
  · -- a key the target was asked for is not among the keys of this command
    obtain ⟨k, hkeys, hnone⟩ := h.asked c' hc'
    have hk : k ∉ c.keys := fun hk => hhere k hk hnone
    exact ⟨k, hkeys, (c.frame s.home k hk).trans hnone⟩
  · refine h.explained.run hreply (funext fun k => ?_)
    change (c.run s.home k).or (s.away k) = c.run s.view k
    by_cases hk : k ∈ c.keys
    · rw [haway k hk, Option.or_none, hrun k hk]
    · rw [c.frame s.home k hk, c.frame s.view k hk]
      rfl

theorem Sound.execute (hm : Moving slot source target) {i : Nat}
    (hcare : s.Careful source (.execute i))
    (hs : s.step source target (.execute i) = some s') : Sound st₀ s' := by
  simp only [step] at hs
  split at hs
  · rename_i c hc hidle
    split at hs
    · rename_i hroute
      cases hs
      refine h.runHome hidle (present_of_careful hm hcare hc fun hr => ?_)
      rw [if_pos hr] at hroute
      exact hroute
    · rename_i e hroute
      cases hs
      have hasked : Sound st₀ (s.redirect c e) := by
        by_cases hr : c.rechecked = true
        · rw [if_pos hr] at hroute
          exact h.redirect hm hroute
        · rw [if_neg hr] at hroute
          cases hroute
      cases e <;> exact ⟨hasked.single, hasked.copied, hasked.asked, hasked.explained⟩
  · cases hs

theorem Sound.executeAway {i : Nat}
    (hs : s.step source target (.executeAway i) = some s') : Sound st₀ s' := by
  simp only [step] at hs
  split at hs
  · cases hs
  · rename_i c hc
    obtain ⟨k, hkeys, hnone⟩ := h.asked c (mem_append_right _ (mem_of_getElem? hc))
    have hasked : ∀ c' ∈ s.asked ++ s.waitingAway.eraseIdx i,
        ∃ k, c'.keys = [k] ∧ s.home k = none := by
      intro c' hc'
      refine h.asked c' (mem_append.2 ((mem_append.1 hc').imp_right ?_))
      exact mem_of_mem_eraseIdx
    split at hs
    · cases hs
      -- the one key of the command is at the target or nowhere
      have hagree : ∀ k' ∈ c.keys, s.away k' = s.view k' := by
        intro k' hk'
        rw [hkeys, mem_singleton] at hk'
        simp [hk', view, hnone]
      obtain ⟨hreply, hrun⟩ := c.reads s.away s.view hagree
      refine ⟨fun k' hhome hsome => ?_, fun k' hk' => ?_, hasked, ?_⟩
      · by_cases hk' : k' ∈ c.keys
        · rw [hkeys, mem_singleton] at hk'
          exact absurd (hk' ▸ hnone) hhome
        · have hbefore : c.run s.away k' ≠ none := hsome
          rw [c.frame s.away k' hk'] at hbefore
          exact h.single k' hhome hbefore
      · obtain ⟨hhome, heq⟩ := h.copied k' hk'
        refine ⟨hhome, ?_⟩
        have hout : k' ∉ c.keys := by
          rw [hkeys, mem_singleton]
          rintro rfl
          exact hhome hnone
        exact (c.frame s.away k' hout).trans heq
      · refine h.explained.run hreply (funext fun k' => ?_)
        change (s.home k').or (c.run s.away k') = c.run s.view k'
        by_cases hk' : k' ∈ c.keys
        · rw [← hrun k' hk']
          rw [hkeys, mem_singleton] at hk'
          rw [hk', hnone, Option.none_or]
        · rw [c.frame s.away k' hk', c.frame s.view k' hk']
          rfl
    · cases hs
      exact ⟨h.single, h.copied, hasked, h.explained⟩

theorem Sound.restore {key : Bytes} {replace : Bool}
    (hs : s.step source target (.restore key replace) = some s') : Sound st₀ s' := by
  simp only [step] at hs
  split at hs
  · rename_i v hidle hv
    split at hs
    · cases hs
      exact h
    · cases hs
      have hhere : s.home key ≠ none := by
        rw [hv]
        exact Option.some_ne_none v
      refine ⟨fun k hhome hsome => ?_, fun k hk => ?_, h.asked, ?_⟩
      · by_cases hk : k = key
        · rw [hk]
        · have hsome' : s.away k ≠ none := by simpa [Function.update_of_ne hk] using hsome
          have hmoving := h.single k hhome hsome'
          rw [hidle] at hmoving
          cases hmoving
      · obtain rfl : key = k := Option.some.inj hk
        exact ⟨hhere, by simp [hv]⟩
      · -- the copy hides behind the owner's value
        have hview : ∀ k, (s.home k).or (Function.update s.away key (some v) k) = s.view k := by
          intro k
          by_cases hk : k = key
          · rw [hk, view_of_home hhere, hv]
            rfl
          · rw [Function.update_of_ne hk]
            rfl
        exact h.explained.congr hview
  · cases hs

theorem Sound.forget (hs : s.step source target .forget = some s') : Sound st₀ s' := by
  simp only [step] at hs
  split at hs
  · cases hs
  · rename_i key hmoving
    cases hs
    obtain ⟨hhere, hcopy⟩ := h.copied key hmoving
    refine ⟨fun k hhome hsome => ?_, fun k hk => ?_, fun c' hc' => ?_, ?_⟩
    · by_cases hk : k = key
      · rw [hk] at hhome
        simp at hhome
      · have hhome' : s.home k ≠ none := by simpa [Function.update_of_ne hk] using hhome
        have hother := h.single k hhome' hsome
        rw [hmoving] at hother
        exact absurd (Option.some.inj hother).symm hk
    · cases hk
    · obtain ⟨k, hkeys, hnone⟩ := h.asked c' hc'
      refine ⟨k, hkeys, ?_⟩
      have hk : k ≠ key := fun hk => hhere (hk ▸ hnone)
      exact (Function.update_of_ne hk _ _).trans hnone
    · have hview : ∀ k, (Function.update s.home key none k).or (s.away k) = s.view k := by
        intro k
        by_cases hk : k = key
        · rw [hk, view_of_home hhere, ← hcopy]
          simp
        · rw [Function.update_of_ne hk]
          rfl
      exact h.explained.congr hview

end

theorem Sound.step (hm : Moving slot source target) (s : Migration V R slot)
    (e : Event V R slot) (s' : Migration V R slot) (h : Sound st₀ s)
    (hcare : s.Careful source e) (hs : s.step source target e = some s') : Sound st₀ s' := by
  cases e with
  | arrive c => exact h.arrive hm hs
  | follow i => exact h.follow hs
  | execute i => exact h.execute hm hcare hs
  | executeAway i => exact h.executeAway hs
  | restore key replace => exact h.restore hs
  | forget => exact h.forget hs
  | giveUp => exact hcare.elim

theorem Start.sound (h : Start s) : Sound s.view s := by
  refine ⟨h.single, fun k hk => ?_, fun c hc => ?_, ?_⟩
  · rw [h.moving] at hk
    cases hk
  · rw [h.asked, h.waitingAway] at hc
    cases hc
  · rw [h.log]
    exact rfl

end

end Migration

/-! ## A slot with two keys -/

namespace TwoKeys

def first : Bytes := [123, 97, 125, 49]
def second : Bytes := [123, 97, 125, 50]

def tagSlot : Slot := clusterKeySlot first

def owner : Addr := [115, 58, 49]
def target : Addr := [116, 58, 49]

def begun : Migration Nat (List (Option Nat)) tagSlot :=
  { home := fun k => if k = first then some 1 else if k = second then some 2 else none
    away := fun _ => none, waiting := [], asked := [], waitingAway := [], moving := none,
    log := [] }

end TwoKeys

namespace Migration

end Migration

end Cluster
end SnugKV
