import SnugKV.Acl.File

/-!
# RoundTrip — saving and loading the users

A user's line is a sequence of words when nothing in it contains white space, except that a selector
is printed with spaces between its parentheses.  The reader splits there, and the first piece of a
selector is an open parenthesis without its partner.

* `loadLine_user`     — the line of a user without selectors adds that user;
* `loadLine_selector` — the line of a user with a selector is refused;
* `roundTrip_iff`     — so the round trip succeeds, and gives the same decisions, exactly when no
  user has a selector and every line fits the reader's buffer;
* `roundTrip_fails`   — a selector, and a pattern with a space that gives all keys away.
-/

namespace SnugKV
namespace Acl

open Lib List

/-! ## The words of a line -/

/-- The name, and what is printed of the patterns and command rules, have no white space. -/
def Words (u : ACLUser) : Prop :=
  IsWord u.name ∧ ∀ r ∈ u.toRuleSet :: u.selectors, ∀ t ∈ selectorTexts r, IsWord t

instance (u : ACLUser) : Decidable (Words u) :=
  inferInstanceAs (Decidable (_ ∧ _))

def closeLast : List Bytes → List Bytes
  | [] => []
  | [t] => [t ++ [0x29]]
  | t :: t' :: ts => t :: closeLast (t' :: ts)

def fragmentWords (r : RuleSet) : List Bytes :=
  match selectorTexts r with
  | [] => []
  | t :: ts => (0x28 :: t) :: closeLast ts

def lineWords (u : ACLUser) : List Bytes :=
  u.name :: rootTexts u ++ u.selectors.flatMap fragmentWords

theorem intercalate_space (t : Bytes) (ts : List Bytes) :
    intercalate [0x20] (t :: ts) = spaced t ts := by
  induction ts generalizing t with
  | nil => simp [spaced, intercalate]
  | cons t' ts ih =>
    have htail := ih t'
    simp only [intercalate, spaced] at htail ⊢
    simp [htail]

variable {ts : List Bytes}

theorem flatMap_closeLast (h : ts ≠ []) :
    ((closeLast ts).flatMap fun w => 0x20 :: w) = (ts.flatMap fun w => 0x20 :: w) ++ [0x29] := by
  induction ts with
  | nil => exact absurd rfl h
  | cons t ts ih =>
    cases ts with
    | nil => simp [closeLast]
    | cons t' ts => simp [closeLast, ih (cons_ne_nil t' ts)]

variable {r : RuleSet} {env : Env} {u : ACLUser} {acl : ACL} {users : List ACLUser}

theorem selectorTexts_eq (h : r.commandRules ≠ []) :
    ∃ t ts, selectorTexts r = t :: ts ∧ ts ≠ [] := by
  have hlen : 2 ≤ (selectorTexts r).length := by
    have hrules := length_pos_of_ne_nil h
    have hchannels : 0 < (channelTexts r).length := by
      rw [channelTexts]
      split <;> simp
    simp only [selectorTexts, length_append]
    omega
  generalize selectorTexts r = texts at hlen ⊢
  rcases texts with - | ⟨t, - | ⟨t', ts⟩⟩
  · simp at hlen
  · simp at hlen
  · exact ⟨t, t' :: ts, rfl, cons_ne_nil _ _⟩

theorem fragment_eq (h : SelectorSound r) :
    ((fragmentWords r).flatMap fun w => 0x20 :: w) = 0x20 :: aclSelectorListFragment r := by
  obtain ⟨t, ts, hts, hne⟩ := selectorTexts_eq h.commands
  rw [fragmentWords, aclSelectorListFragment, hts]
  rw [intercalate_space, flatMap_cons, flatMap_closeLast hne, spaced]
  simp

theorem aclUserFileLine_eq (h : Sound env u) :
    aclUserFileLine u = spaced (ascii "user") (lineWords u) := by
  have hselectors : (u.selectors.map aclSelectorListFragment).flatMap (fun w => 0x20 :: w) =
      (u.selectors.flatMap fragmentWords).flatMap fun w => 0x20 :: w := by
    rw [flatMap_map, flatMap_assoc]
    exact flatMap_congr fun r hr => (fragment_eq (h.selectors r hr)).symm
  simp only [aclUserFileLine, lineWords, spaced, flatMap_append, hselectors]

theorem isWord_closeLast (h : ∀ t ∈ ts, IsWord t) : ∀ t ∈ closeLast ts, IsWord t := by
  induction ts with
  | nil => simp [closeLast]
  | cons t ts ih =>
    obtain ⟨ht, hts⟩ := forall_mem_cons.1 h
    cases ts with
    | nil =>
      intro w hw
      rw [mem_singleton.1 hw]
      exact ⟨by simp, by rw [hasSpace_append_ascii (by decide) (by decide), ht.2]⟩
    | cons t' ts => exact forall_mem_cons.2 ⟨ht, ih hts⟩

theorem isWord_fragmentWords (h : ∀ t ∈ selectorTexts r, IsWord t) :
    ∀ t ∈ fragmentWords r, IsWord t := by
  rw [fragmentWords]
  cases hts : selectorTexts r with
  | nil => simp
  | cons t ts =>
    rw [hts] at h
    obtain ⟨ht, hrest⟩ := forall_mem_cons.1 h
    exact forall_mem_cons.2 ⟨⟨cons_ne_nil _ _, by
      rw [hasSpace_cons_ascii (by decide) (by decide), ht.2]⟩, isWord_closeLast hrest⟩

theorem hexDigit_ascii {c : UInt8} (h : ((0x30 ≤ c && c ≤ 0x39) || (0x61 ≤ c && c ≤ 0x66)) = true) :
    c < 0x80 ∧ asciiSpace c = false := by
  simp [asciiSpace, UInt8.lt_iff_toNat_lt, UInt8.le_iff_toNat_le, ← UInt8.toNat_inj] at *
  omega

theorem isWord_rootTexts (h : Sound env u) (hwords : ∀ t ∈ selectorTexts u.toRuleSet, IsWord t) :
    ∀ t ∈ rootTexts u, IsWord t := by
  intro t ht
  have hrest : rootTexts u = [if u.enabled then ascii "on" else ascii "off"] ++
      (if u.noPass then [ascii "nopass"] else []) ++
      [if u.sanitizePayload then ascii "sanitize-payload" else ascii "skip-sanitize-payload"] ++
      u.passwordHashes.map (0x23 :: ·) ++ selectorTexts u.toRuleSet := by
    simp only [rootTexts, selectorTexts, append_assoc]
  rw [hrest] at ht
  simp only [append_assoc, mem_append, mem_map, mem_singleton] at ht
  rcases ht with rfl | ht | rfl | ⟨hash, hhash, rfl⟩ | ht
  · split <;> decide
  · split at ht
    · rw [mem_singleton.1 ht]; decide
    · cases ht
  · split <;> decide
  · -- hexadecimal digits
    refine ⟨cons_ne_nil _ _, ?_⟩
    rw [hasSpace_cons_ascii (by decide) (by decide)]
    exact hasSpace_of_ascii fun c hc => hexDigit_ascii (mem_of_valid (h.valid hash hhash) hc)
  · exact hwords t ht

theorem isWord_lineWords (h : Sound env u) (hwords : Words u) :
    ∀ t ∈ ascii "user" :: lineWords u, IsWord t := by
  intro t ht
  simp only [lineWords, cons_append, mem_cons, mem_append, mem_flatMap] at ht
  rcases ht with rfl | rfl | ht | ⟨r, hr, ht⟩
  · decide
  · exact hwords.1
  · exact isWord_rootTexts h (hwords.2 _ (mem_cons_self ..)) t ht
  · exact isWord_fragmentWords (hwords.2 r (.tail _ hr)) t ht

/-! ## One line -/

theorem loadLine_eq (h : Sound env u) (hwords : Words u) (acl : ACL) (n : Nat) :
    loadLine env acl n (dropCR (aclUserFileLine u)) =
      match setUser env acl u.name (rootTexts u ++ u.selectors.flatMap fragmentWords) with
      | (some e, _) => .error (.line n (some e))
      | (none, acl) => .ok acl := by
  have hword := isWord_lineWords h hwords
  have hline := aclUserFileLine_eq h
  have hhead : ∃ s, spaced (ascii "user") (lineWords u) = 0x75 :: s := ⟨_, rfl⟩
  obtain ⟨s, hs⟩ := hhead
  rw [loadLine, hline, dropCR_spaced hword, trimSpace_spaced hword, fields_spaced hword, if_neg]
  · rfl
  · rintro (hnil | hcomment)
    · cases hnil
    · cases (cons.inj hcomment).1

theorem applyRules_refused {rules : List Bytes} {rule : Bytes} (hmem : rule ∈ rules)
    (hrule : ∀ v, ∃ e, applyRule env v rule = .error e) (u : ACLUser) :
    ∃ e, (applyRules env u rules).2 = some e := by
  induction rules generalizing u with
  | nil => cases hmem
  | cons first rules ih =>
    rw [applyRules]
    cases hfirst : applyRule env u first with
    | error e => exact ⟨e, rfl⟩
    | ok v =>
      rcases mem_cons.1 hmem with rfl | hmem
      · obtain ⟨e, he⟩ := hrule u
        rw [he] at hfirst
        cases hfirst
      · exact ih hmem v

theorem first_text_paren (h : SelectorSound r) {t : Bytes}
    (hts : selectorTexts r = t :: ts) : 0x29 ∉ t := by
  rw [selectorTexts] at hts
  cases hkeys : r.keyPatterns with
  | cons p patterns =>
    rw [hkeys] at hts
    obtain ⟨rfl, -⟩ := cons.inj hts
    have hp := h.keys p (by rw [hkeys]; exact mem_cons_self ..)
    simp [hp]
  | nil =>
    rw [hkeys, channelTexts] at hts
    split at hts
    · obtain ⟨rfl, -⟩ := cons.inj hts
      decide
    · obtain ⟨rfl, -⟩ := cons.inj hts
      decide

theorem applyRule_fragment (h : SelectorSound r) (env : Env) :
    ∃ w ∈ fragmentWords r, ∀ v, ∃ e, applyRule env v w = .error e := by
  obtain ⟨t, ts, hts, -⟩ := selectorTexts_eq h.commands
  have hparen := first_text_paren h hts
  refine ⟨0x28 :: t, by rw [fragmentWords, hts]; exact mem_cons_self .., fun v => ?_⟩
  have hlast : (0x28 :: t).getLast? ≠ some 0x29 := by
    intro hlast
    rcases mem_cons.1 (mem_of_getLast? hlast) with heq | hmem
    · cases heq
    · exact hparen hmem
  have hparse : parseACLSelector env (0x28 :: t) = .error (.unmatched (0x28 :: t)) := by
    rw [parseACLSelector, if_neg (by simp), if_pos hlast]
  refine ⟨.unmatched (0x28 :: t), ?_⟩
  rw [applyRule, if_neg (by simp), if_pos (show (0x28 :: t).head? = some 0x28 from rfl), hparse]

theorem setUser_selector (h : Sound env u) (hselectors : u.selectors ≠ []) (acl : ACL) :
    ∃ e, (setUser env acl u.name (rootTexts u ++ u.selectors.flatMap fragmentWords)).1 =
      some e := by
  obtain ⟨r, hr⟩ := exists_mem_of_ne_nil _ hselectors
  obtain ⟨w, hw, hrefused⟩ := applyRule_fragment (h.selectors r hr) env
  have hmem : w ∈ rootTexts u ++ u.selectors.flatMap fragmentWords :=
    mem_append_right _ (mem_flatMap.2 ⟨r, hr, hw⟩)
  rw [setUser, if_neg h.named]
  split
  · exact ⟨_, rfl⟩
  · exact applyRules_refused hmem hrefused _

theorem loadLine_user (h : Sound env u) (hwords : Words u) (hselectors : u.selectors = [])
    (hnew : u.name ∉ acl.map ACLUser.name) (n : Nat) :
    loadLine env acl n (dropCR (aclUserFileLine u)) = .ok (acl ++ [u]) := by
  have hnone := ACL.user?_none.2 hnew
  have hsame : { u with selectors := [] } = u := by rw [← hselectors]
  rw [loadLine_eq h hwords, hselectors, flatMap_nil, append_nil, setUser, if_neg h.named,
    unknownCategory_rootTexts h, hnone]
  simp only [Option.getD_none, applyRules_rootTexts h, hsame, ACL.put, hnone, Option.isSome_none,
    Bool.false_eq_true, if_false]

theorem loadLine_selector (h : Sound env u) (hwords : Words u) (hselectors : u.selectors ≠ [])
    (acl : ACL) (n : Nat) : ∃ e, loadLine env acl n (dropCR (aclUserFileLine u)) = .error e := by
  obtain ⟨e, he⟩ := setUser_selector h hselectors acl
  rw [loadLine_eq h hwords]
  split
  · exact ⟨_, rfl⟩
  · rename_i hset
    rw [hset] at he
    cases he

/-! ## The whole file -/

theorem line_feed_notMem (h : Sound env u) (hwords : Words u) : 0x0A ∉ aclUserFileLine u := by
  rw [aclUserFileLine_eq h]
  exact notMem_spaced (isWord_lineWords h hwords) (by decide) (by decide)

theorem loadLines_users (hsound : ∀ u ∈ users, Sound env u)
    (hwords : ∀ u ∈ users, Words u) (hselectors : ∀ u ∈ users, u.selectors = [])
    (hnames : ((acl ++ users).map ACLUser.name).Nodup) (n : Nat) :
    loadLines env acl n (users.map fun u => some (dropCR (aclUserFileLine u))) =
      .ok (acl ++ users) := by
  induction users generalizing acl n with
  | nil => rw [append_nil]; rfl
  | cons u users ih =>
    obtain ⟨hu, hsound⟩ := forall_mem_cons.1 hsound
    obtain ⟨huw, hwords⟩ := forall_mem_cons.1 hwords
    obtain ⟨hus, hselectors⟩ := forall_mem_cons.1 hselectors
    have hnew : u.name ∉ acl.map ACLUser.name := by
      intro hmem
      rw [map_append, map_cons] at hnames
      exact (nodup_append.1 hnames).2.2 _ hmem _ (mem_cons_self ..) rfl
    have hassoc : acl ++ u :: users = acl ++ [u] ++ users := by simp
    rw [hassoc] at hnames ⊢
    rw [map_cons, loadLines, loadLine_user hu huw hus hnew]
    exact ih hsound hwords hselectors hnames (n + 1)

theorem loadLines_ok (hsound : ∀ u ∈ users, Sound env u)
    (hwords : ∀ u ∈ users, Words u) {acl' : ACL} {n : Nat} (hok : loadLines env acl n
      (scanLines maxLine (users.flatMap fun u => aclUserFileLine u ++ [0x0A])) = .ok acl') :
    ∀ u ∈ users, u.selectors = [] ∧ (aclUserFileLine u).length < maxLine := by
  induction users generalizing acl n with
  | nil => exact nofun
  | cons u users ih =>
    obtain ⟨hu, hsound⟩ := forall_mem_cons.1 hsound
    obtain ⟨huw, hwords⟩ := forall_mem_cons.1 hwords
    rw [flatMap_cons, append_assoc, singleton_append, scanLines,
      linesFrom_line (line_feed_notMem hu huw), nil_append] at hok
    split_ifs at hok with hfits
    · rw [loadLines] at hok
      split at hok
      · cases hok
      · rename_i next hnext
        refine forall_mem_cons.2 ⟨⟨?_, hfits⟩, ih hsound hwords hok⟩
        by_contra hselectors
        obtain ⟨e, he⟩ := loadLine_selector hu huw hselectors acl (n + 1)
        rw [he] at hnext
        cases hnext
    · cases hok

/-! ## Decisions -/

/-- The file is loaded, and every login and every command line is decided as before. -/
def RoundTrip (env : Env) (x : Extraction) (acl : ACL) : Prop :=
  ∃ acl', loadACLFile env (saveFile acl) = .ok acl' ∧
    (∀ username password, authenticate env acl' username password =
      authenticate env acl username password) ∧
    ∀ username args, authorizeConnectionCommand env x acl' username args =
      authorizeConnectionCommand env x acl username args

theorem ACL.user?_eq_some (hnames : (acl.map ACLUser.name).Nodup) {name : Bytes} :
    acl.user? name = some u ↔ u ∈ acl ∧ u.name = name := by
  refine ⟨ACL.user?_some, fun ⟨hmem, hname⟩ => ?_⟩
  cases hfound : acl.user? name with
  | none =>
    have hno := ACL.user?_none.1 hfound
    exact absurd (mem_map.2 ⟨u, hmem, hname⟩) hno
  | some v =>
    obtain ⟨hv, hvname⟩ := ACL.user?_some hfound
    rw [inj_on_of_nodup_map hnames hv hmem (hvname.trans hname.symm)]

theorem ACL.user?_perm {acl' : ACL} (hperm : acl'.Perm acl) (hnames : (acl.map ACLUser.name).Nodup)
    (name : Bytes) : acl'.user? name = acl.user? name := by
  have hnames' : (acl'.map ACLUser.name).Nodup := (hperm.map _).nodup_iff.2 hnames
  refine Option.ext fun u => ?_
  rw [ACL.user?_eq_some hnames', ACL.user?_eq_some hnames, hperm.mem_iff]

/-- After any history whose names, patterns and command rules are words, the file brings the same
decisions back exactly when no user has a selector and every line fits the buffer of the reader. -/
theorem roundTrip_iff (env : Env) (x : Extraction) (commands : List AclCommand)
    (hwords : ∀ u ∈ history env commands, Words u) :
    RoundTrip env x (history env commands) ↔
      ∀ u ∈ history env commands, u.selectors = [] ∧ (aclUserFileLine u).length < maxLine := by
  have hsound := history_sound env commands
  generalize history env commands = acl at hwords hsound ⊢
  -- the users in the order of the file
  have hperm := perm_insertionSort (fun u v : ACLUser => u.name ≤ v.name) acl
  have hsaveSound : ∀ u ∈ acl.insertionSort fun u v => u.name ≤ v.name, Sound env u :=
    fun u hu => hsound.users u (hperm.mem_iff.1 hu)
  have hsaveWords : ∀ u ∈ acl.insertionSort fun u v => u.name ≤ v.name, Words u :=
    fun u hu => hwords u (hperm.mem_iff.1 hu)
  constructor
  · rintro ⟨acl', hload, -⟩ u hu
    exact loadLines_ok hsaveSound hsaveWords hload u (hperm.mem_iff.2 hu)
  · intro hplain
    have hlines : scanLines maxLine (saveFile acl) =
        (acl.insertionSort fun u v => u.name ≤ v.name).map
          fun u => some (dropCR (aclUserFileLine u)) := by
      rw [saveFile, ← flatMap_map aclUserFileLine fun l => l ++ [0x0A], scanLines_flatMap, map_map]
      · rfl
      · intro l hl
        obtain ⟨u, hu, rfl⟩ := mem_map.1 hl
        exact ⟨line_feed_notMem (hsaveSound u hu) (hsaveWords u hu),
          (hplain u (hperm.mem_iff.1 hu)).2⟩
    have hload : loadACLFile env (saveFile acl) =
        .ok (acl.insertionSort fun u v => u.name ≤ v.name) := by
      rw [loadACLFile, hlines, loadLines_users hsaveSound hsaveWords, nil_append]
      · exact fun u hu => (hplain u (hperm.mem_iff.1 hu)).1
      · exact (hperm.map _).nodup_iff.2 hsound.names
    have hsame := ACL.user?_perm hperm hsound.names
    refine ⟨_, hload, fun username password => ?_, fun username args => ?_⟩
    · simp only [authenticate, hsame]
    · simp only [authorizeConnectionCommand, hsame]

/-! ## Two histories -/

theorem lowerByte_lowerByte (a : UInt8) : lowerByte (lowerByte a) = lowerByte a := by
  simp only [lowerByte, Bool.and_eq_true, decide_eq_true_eq, UInt8.le_iff_toNat_le]
  split_ifs with hupper hlower
  · have hsum : (a + 0x20).toNat = a.toNat + 0x20 := by
      have := hupper.2
      simp at this ⊢
      omega
    simp at hupper hlower
    omega
  · rfl
  · rfl

theorem lowerByte_paren {a : UInt8} (h : lowerByte a = 0x29) : a = 0x29 := by
  rw [lowerByte] at h
  split_ifs at h with hupper
  · simp only [Bool.and_eq_true, decide_eq_true_eq, UInt8.le_iff_toNat_le] at hupper
    have hsum := congrArg UInt8.toNat h
    simp at hupper hsum
    omega
  · exact h

/-- ASCII letters only, no categories, and one hash for every password. -/
def plainEnv : Env where
  lower := List.map lowerByte
  lower_nil := rfl
  lower_cons := fun _ _ _ => rfl
  lower_lower := fun s => by simp [lowerByte_lowerByte]
  lower_paren := fun s hs hmem => by
    obtain ⟨a, ha, heq⟩ := mem_map.1 hmem
    exact hs (lowerByte_paren heq ▸ ha)
  categories := fun _ => none
  categories_all := rfl
  passwordHash := fun _ => List.replicate 64 0x61
  passwordHash_valid := fun _ => by decide

/-- The key of `GET`. -/
def firstKey : Extraction where
  upper := id
  commandKeys := fun args => some ((args.drop 1).take 1)
  sortExternal := fun _ => false

theorem roundTrip_iff_words :
    (∀ u ∈ history plainEnv [.setUser (ascii "bob")
        [ascii "on", ascii ">pw", ascii "~app:*", ascii "+get", ascii "&news"]], Words u) ∧
      RoundTrip plainEnv firstKey (history plainEnv [.setUser (ascii "bob")
        [ascii "on", ascii ">pw", ascii "~app:*", ascii "+get", ascii "&news"]]) :=
  have hwords : ∀ u ∈ history plainEnv [.setUser (ascii "bob")
      [ascii "on", ascii ">pw", ascii "~app:*", ascii "+get", ascii "&news"]], Words u := by
    decide +kernel
  ⟨hwords, (roundTrip_iff plainEnv firstKey _ hwords).2 (by decide +kernel)⟩

/-- A selector cannot be loaded; a key pattern with a space comes back as two rules, and the second
one here allows all keys. -/
theorem roundTrip_fails :
    loadACLFile plainEnv (saveFile (history plainEnv [.setUser (ascii "bob")
        [ascii "on", ascii "(+get ~x)"]])) = .error (.line 1 (some (.unmatched (ascii "(~x")))) ∧
    authorizeConnectionCommand plainEnv firstKey (history plainEnv [.setUser (ascii "bob")
        [ascii "on", ascii "nopass", ascii "~a allkeys", ascii "+get"]])
      (ascii "bob") [ascii "get", ascii "secret"] = false ∧
    (loadACLFile plainEnv (saveFile (history plainEnv [.setUser (ascii "bob")
        [ascii "on", ascii "nopass", ascii "~a allkeys", ascii "+get"]]))).toOption.map
      (fun acl => authorizeConnectionCommand plainEnv firstKey acl (ascii "bob")
        [ascii "get", ascii "secret"]) = some true := by
  decide +kernel

end Acl
end SnugKV
