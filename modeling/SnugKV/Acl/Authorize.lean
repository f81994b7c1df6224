import SnugKV.Acl.Rules

/-!
# Authorize — which command lines a user may send

The decision of `aclUserAllowsCommand` in `server/acl_selectors.go`: a command line is allowed if
one rule set, the user's own or a selector, permits the command, every key that key extraction finds
and every channel.  Key extraction may fail, and then no key is looked at.

The decision depends on the keys a command line names, which `Extraction` gives.
-/

namespace SnugKV
namespace Acl

open Lib

/-! ## Patterns -/

/-- The characters of a string, each as its bytes; a byte that starts none is `U+FFFD`. -/
def runes (s : Bytes) : List Bytes :=
  (pieces s).map fun p => p.getD replacement

def globMatch : List Bytes → List Bytes → Bool
  | [], v => v.isEmpty
  | c :: p, v =>
    if c = ascii "*" then
      -- a run of stars counts once, and one at the end takes all the rest
      if p.head? = some (ascii "*") then globMatch p v
      else p.isEmpty || v.tails.any (globMatch p)
    else
      match v with
      | [] => false
      | d :: v => (c = ascii "?" || c = d) && globMatch p v

def aclGlobMatch (pattern value : Bytes) : Bool :=
  globMatch (runes pattern) (runes value)

/-! ## One rule set -/

/-- What the check learns from a command line. -/
structure Extraction where
  /-- `strings.ToUpper`. -/
  upper : Bytes → Bytes
  /-- `commandKeys`: the keys the line names, `none` if extraction fails. -/
  commandKeys : List Bytes → Option (List Bytes)
  /-- `sortExternalACLPatternKind` finds a pattern of external keys. -/
  sortExternal : List Bytes → Bool

namespace RuleSet

def commandAllowed (env : Env) (r : RuleSet) (command : Bytes) : Bool :=
  (r.commandAllow.lookup (env.lower command)).getD r.allCommands

def keyAllowed (r : RuleSet) (key : Bytes) : Bool :=
  r.allKeys || r.keyPatterns.any fun p => aclGlobMatch p key

def channelAllowed (r : RuleSet) (channel : Bytes) : Bool :=
  r.allChannels || r.channelPatterns.any fun p => aclGlobMatch p channel

def channelPatternAllowed (r : RuleSet) (pattern : Bytes) : Bool :=
  r.allChannels || pattern ∈ r.channelPatterns

def channelsAllowed (x : Extraction) (r : RuleSet) : List Bytes → Bool
  | cmd :: first :: rest =>
    let name := x.upper cmd
    if name = ascii "PUBLISH" ∨ name = ascii "SPUBLISH" then r.channelAllowed first
    else if name = ascii "SUBSCRIBE" ∨ name = ascii "SSUBSCRIBE" then
      (first :: rest).all r.channelAllowed
    else if name = ascii "PSUBSCRIBE" then (first :: rest).all r.channelPatternAllowed
    else true
  | _ => true

/-- `aclRuleSetAllows`. -/
def allows (env : Env) (x : Extraction) (r : RuleSet) (command : Bytes)
    (args : List Bytes) : Bool :=
  r.commandAllowed env command && (!x.sortExternal args || r.allKeys) &&
    ((x.commandKeys args).getD []).all r.keyAllowed && r.channelsAllowed x args

end RuleSet

/-! ## A user -/

def aclCanonicalCommand (env : Env) : List Bytes → Bytes
  | [] => []
  | [cmd] => env.lower cmd
  | cmd :: sub :: _ =>
    if env.lower cmd = ascii "acl" then ascii "acl|" ++ env.lower sub else env.lower cmd

/-- `aclUserAllowsCommand`: any complete rule set is enough. -/
def aclUserAllowsCommand (env : Env) (x : Extraction) (u : ACLUser) (args : List Bytes) : Bool :=
  args ≠ [] && (u.toRuleSet :: u.selectors).any fun r =>
    r.allows env x (aclCanonicalCommand env args) args

/-- A connection of an enabled user may send the line; the three commands that a connection needs
to get in are always accepted. -/
def authorizeConnectionCommand (env : Env) (x : Extraction) (acl : ACL) (username : Bytes)
    (args : List Bytes) : Bool :=
  match args with
  | [] => true
  | cmd :: _ =>
    if equalFold cmd (ascii "AUTH") || equalFold cmd (ascii "HELLO") || equalFold cmd (ascii "QUIT")
    then true
    else
      match acl.user? username with
      | none => false
      | some u =>
        u.enabled &&
          -- the user who may do everything
          (u.allCommands && u.commandAllow.isEmpty && u.allKeys && u.allChannels &&
            u.selectors.isEmpty || aclUserAllowsCommand env x u args)

end Acl
end SnugKV
