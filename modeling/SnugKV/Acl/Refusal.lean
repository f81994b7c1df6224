import SnugKV.Acl.RoundTrip

/-!
# Refusal — what a refused `SETUSER` leaves behind

`SetUser` works on the user itself, rule by rule, and adds a new user before the first rule.  Only
unknown categories are looked for in advance.

* `ACL.Same` — every name stands for the same user, with single commands compared as a map;
* `RefusedFirst` — the user exists and the first rule is refused;
* `setUser_atomic` — such a call changes nothing; a new user stays, whatever becomes of the rules.
-/

namespace SnugKV
namespace Acl

open Lib List

/-! ## Equal users -/

structure RuleSet.Same (r s : RuleSet) : Prop where
  rest : { r with commandAllow := [] } = { s with commandAllow := [] }
  commands : ∀ command, r.commandAllow.lookup command = s.commandAllow.lookup command

structure ACLUser.Same (u v : ACLUser) : Prop where
  own : u.toRuleSet.Same v.toRuleSet
  rest : { u with toRuleSet := newACLSelector, selectors := [] } =
    { v with toRuleSet := newACLSelector, selectors := [] }
  selectors : Forall₂ RuleSet.Same u.selectors v.selectors

def ACL.Same (acl acl' : ACL) : Prop :=
  ∀ name, Option.Rel ACLUser.Same (acl.user? name) (acl'.user? name)

theorem RuleSet.Same.refl (r : RuleSet) : r.Same r := ⟨rfl, fun _ => rfl⟩

theorem ACLUser.Same.refl (u : ACLUser) : u.Same u :=
  ⟨.refl _, rfl, forall₂_same.2 fun r _ => .refl r⟩

theorem ACL.Same.refl (acl : ACL) : acl.Same acl := by
  intro name
  cases acl.user? name with
  | none => exact .none
  | some u => exact .some (.refl u)

variable {env : Env} {acl : ACL} {name : Bytes} {rules : List Bytes} {v : ACLUser}

theorem ACL.user?_put (acl : ACL) (u : ACLUser) (name : Bytes) :
    (acl.put u).user? name = if name = u.name then some u else acl.user? name := by
  have hreplace : ACL.user? (acl.map fun v => if v.name = u.name then u else v) name =
      if name = u.name then (acl.user? name).map fun _ => u else acl.user? name := by
    rw [ACL.user?, ACL.user?]
    induction acl with
    | nil => simp
    | cons v acl ih => grind
  rw [ACL.put]
  split_ifs with hknown hname hname
  · obtain ⟨w, hw⟩ := Option.isSome_iff_exists.1 hknown
    rw [hreplace, if_pos hname, hname, hw, Option.map_some]
  · rw [hreplace, if_neg hname]
  · have hnone : acl.find? (fun v => v.name == u.name) = none := by simpa [ACL.user?] using hknown
    simp [ACL.user?, find?_append, hname, hnone]
  · simp [ACL.user?, find?_append, Ne.symm hname]

theorem applyRules_name (env : Env) (u : ACLUser) (rules : List Bytes) :
    (applyRules env u rules).1.name = u.name := by
  induction rules generalizing u with
  | nil => rfl
  | cons rule rules ih =>
    rw [applyRules]
    split
    · rfl
    next v hv => exact (ih v).trans (applyRule_applied hv).name_eq

/-! ## Refused calls -/

/-- The user exists, and the first rule is refused for it. -/
def RefusedFirst (env : Env) (acl : ACL) (name : Bytes) (rules : List Bytes) : Prop :=
  ∃ u ∈ acl.user? name, ∃ rule ∈ rules.head?, (applyRule env u rule).isOk = false

/-- The rules are looked at one by one. -/
def Proceeds (env : Env) (name : Bytes) (rules : List Bytes) : Prop :=
  name ≠ [] ∧ ∀ rule ∈ rules, unknownCategory env rule = false

theorem setUser_of_proceeds (h : Proceeds env name rules) : setUser env acl name rules =
    ((applyRules env ((acl.user? name).getD (newACLUser name)) rules).2,
      acl.put (applyRules env ((acl.user? name).getD (newACLUser name)) rules).1) := by
  have hnone : rules.find? (unknownCategory env) = none := by
    simpa [find?_eq_none] using h.2
  rw [setUser, if_neg h.1, hnone]

theorem setUser_of_not_proceeds (h : ¬ Proceeds env name rules) :
    (setUser env acl name rules).1 ≠ none ∧ (setUser env acl name rules).2 = acl := by
  unfold setUser
  by_cases hempty : name = []
  · simp [hempty]
  · cases hfind : rules.find? (unknownCategory env) with
    | some rule => simp [hempty]
    | none => exact absurd ⟨hempty, by simpa [find?_eq_none] using hfind⟩ h

/-- The call puts the user it ends with into the map. -/
theorem same_put_iff (hname : v.name = name) :
    acl.Same (acl.put v) ↔ Option.Rel ACLUser.Same (acl.user? name) (some v) := by
  subst hname
  constructor
  · intro hsame
    simpa only [ACL.user?_put, if_true] using hsame v.name
  · intro hrel other
    rw [ACL.user?_put]
    split_ifs with hother
    · rwa [hother]
    · exact ACL.Same.refl acl other

/-- A call with an empty name or an unknown category, and a call for a user that exists whose first
rule is refused, change nothing.  A call that looks at its rules and is for a new user leaves the
user behind, refused or not. -/
theorem setUser_atomic (env : Env) (acl : ACL) (name : Bytes) (rules : List Bytes) :
    (¬ Proceeds env name rules ∨ RefusedFirst env acl name rules →
      (setUser env acl name rules).1 ≠ none ∧ acl.Same (setUser env acl name rules).2) ∧
    (Proceeds env name rules → acl.user? name = none →
      ¬ acl.Same (setUser env acl name rules).2) := by
  refine ⟨fun h => ?_, fun hproceeds hnew hsame => ?_⟩
  · by_cases hproceeds : Proceeds env name rules
    · obtain ⟨u, hold, rule, hrule, hrefused⟩ := h.resolve_left (not_not.2 hproceeds)
      obtain ⟨rest, rfl⟩ := head?_eq_some_iff.1 hrule
      cases happly : applyRule env u rule with
      | ok v =>
        rw [happly] at hrefused
        cases hrefused
      | error e =>
        rw [setUser_of_proceeds hproceeds, hold, Option.getD_some, applyRules, happly]
        refine ⟨by simp, (same_put_iff (ACL.user?_some hold).2).2 ?_⟩
        rw [hold]
        exact .some (.refl u)
    · obtain ⟨hrefused, hsame⟩ := @setUser_of_not_proceeds env acl name rules hproceeds
      rw [hsame]
      exact ⟨hrefused, .refl acl⟩
  · have hname : (applyRules env (newACLUser name) rules).1.name = name :=
      applyRules_name env (newACLUser name) rules
    rw [setUser_of_proceeds hproceeds, hnew, Option.getD_none, same_put_iff hname, hnew] at hsame
    cases hsame

/-- The default user is there, and its first rule is refused. -/
theorem setUser_atomic_default :
    (setUser plainEnv newACL (ascii "default") [ascii "bogus", ascii "off"]).1 ≠ none ∧
      newACL.Same (setUser plainEnv newACL (ascii "default") [ascii "bogus", ascii "off"]).2 :=
  (setUser_atomic plainEnv newACL (ascii "default") [ascii "bogus", ascii "off"]).1
    (.inr ⟨defaultUser, rfl, ascii "bogus", rfl, by decide +kernel⟩)

/-- Later refusals may be harmless, too: here the rules in front take each other back. -/
example : setUser plainEnv newACL (ascii "default") [ascii "off", ascii "on", ascii "bogus"] =
    (some (.malformed (ascii "bogus")), newACL) := rfl

/-- The call is refused for its last rule, and a user that may do everything has come into being. -/
theorem setUser_refused_grants :
    ∃ acl', setUser plainEnv newACL (ascii "bob")
        [ascii "on", ascii "nopass", ascii "+@all", ascii "~*", ascii "bogus"] =
      (some (.malformed (ascii "bogus")), acl') ∧ ¬ newACL.Same acl' ∧
      authorizeConnectionCommand plainEnv firstKey acl' (ascii "bob")
        [ascii "get", ascii "secret"] = true := by
  refine ⟨newACL ++ [_], rfl, fun hsame => ?_, by decide +kernel⟩
  have hbob := hsame (ascii "bob")
  cases hbob

end Acl
end SnugKV
