import Synora.Lib.Text

namespace Synora.Url
open Strings

/-- A URL `scheme://[userinfo@]hosts[tail]`; its authority ends at the first character that
`ends` takes, and its userinfo at the last `@` before that. -/
structure Uri (ends : Char → Bool) where
  scheme : Text
  userinfo : Option Text
  hosts : Text
  tail : Text
  scheme_colon : ':' ∉ scheme
  userinfo_open : ∀ info, userinfo = some info → ∀ c ∈ info, ends c = false
  hosts_open : ∀ c ∈ hosts, ends c = false
  hosts_at : '@' ∉ hosts
  tail_ends : ∀ c, tail.head? = some c → ends c = true

namespace Uri
variable {ends : Char → Bool}

/-- What stands in front of the hosts. -/
def credentials (u : Uri ends) : Text := (u.userinfo.map fun info => info ++ ['@']).getD []

def authority (u : Uri ends) : Text := u.credentials ++ u.hosts

def rest (u : Uri ends) : Text := u.authority ++ u.tail

def text (u : Uri ends) : Text := u.scheme ++ ("://".toList ++ u.rest)

/-- The same URL without its userinfo. -/
def withoutUserinfo (u : Uri ends) : Uri ends :=
  { u with userinfo := none, userinfo_open := fun _ h => nomatch h }

theorem rest_of_none {u : Uri ends} (h : u.userinfo = none) : u.rest = u.hosts ++ u.tail := by
  rw [rest, authority, credentials, h]
  rfl

theorem rest_of_some {u : Uri ends} {info : Text} (h : u.userinfo = some info) :
    u.rest = info ++ '@' :: (u.hosts ++ u.tail) := by
  rw [rest, authority, credentials, h]
  simp

theorem splitOnce_text (u : Uri ends) :
    splitOnce "://".toList u.text = some (u.scheme, u.rest) := by
  have hhit : splitOnce "://".toList ("://".toList ++ u.rest) = some ([], u.rest) :=
    splitOnce_hit _ _
  have hskip : splitOnce "://".toList u.text =
      (splitOnce "://".toList ("://".toList ++ u.rest)).map fun p => (u.scheme ++ p.1, p.2) :=
    splitOnce_append u.scheme_colon _
  rw [hskip, hhit, Option.map_some, List.append_nil]

end Uri

end Synora.Url
