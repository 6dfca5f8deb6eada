import Synora.Lib.Authority

namespace Synora.Manager
open Strings Url

/-! ## Published upstreams -/

/-- `strip_userinfo`; the two slices at the found `@` are what `splitOnce` returns. -/
def stripUserinfo (u : Text) : Text :=
  match splitOnce "://".toList u with
  | some (scheme, rest) =>
    match splitOnce ['@'] rest with
    | some (before, behind) =>
      if ':' ∈ before then scheme ++ ("://".toList ++ behind) else u
    | none => u
  | none => u

/-- The characters that end an authority. -/
def endsAuthority (c : Char) : Bool := decide (c = '/' ∨ c = '?' ∨ c = '#')

/-- What may be published of a URL: one with a password loses its userinfo, one without userinfo
is left alone. -/
def Publishes (u : Uri endsAuthority) (published : Text) : Prop :=
  match u.userinfo with
  | some info => ':' ∈ info → published = u.withoutUserinfo.text
  | none => published = u.text

/-- The first `@` of a URL with a password ends its userinfo; in a URL without userinfo no `:`
stands before the first `@`. -/
def FirstAtFits (u : Uri endsAuthority) : Prop :=
  match u.userinfo with
  | some info => ':' ∈ info → '@' ∉ info
  | none => '@' ∈ u.tail → ':' ∉ u.rest.takeWhile fun c => decide (c ≠ '@')

/-- What is stripped is what stands before the first `@`. -/
theorem stripUserinfo_text {u : Uri endsAuthority} {before behind : Text}
    (h : u.rest = before ++ '@' :: behind) (hbefore : '@' ∉ before) :
    stripUserinfo u.text =
      if ':' ∈ before then u.scheme ++ ("://".toList ++ behind) else u.text := by
  rw [stripUserinfo, u.splitOnce_text]
  dsimp only
  rw [h, splitOnce_singleton hbefore]

theorem stripUserinfo_text_of_not_mem {u : Uri endsAuthority} (h : '@' ∉ u.rest) :
    stripUserinfo u.text = u.text := by
  have hnone : splitOnce ['@'] u.rest = none := by
    cases hsplit : splitOnce ['@'] u.rest with
    | none => rfl
    | some p =>
      rw [splitOnce_eq_append hsplit] at h
      simp at h
  rw [stripUserinfo, u.splitOnce_text]
  dsimp only
  rw [hnone]

/-- Cutting at an `@` changes the URL. -/
theorem cut_ne_text {u : Uri endsAuthority} {before behind : Text}
    (h : u.rest = before ++ '@' :: behind) :
    u.scheme ++ ("://".toList ++ behind) ≠ u.text := by
  intro heq
  have hlen := congrArg List.length (List.append_cancel_left (List.append_cancel_left heq))
  rw [h] at hlen
  simp at hlen
  omega

theorem publishes_iff (u : Uri endsAuthority) :
    Publishes u (stripUserinfo u.text) ↔ FirstAtFits u := by
  unfold Publishes FirstAtFits
  cases hinfo : u.userinfo with
  | some info =>
    refine imp_congr_right fun hcolon => ?_
    have hrest := Uri.rest_of_some hinfo
    have hout : u.withoutUserinfo.text = u.scheme ++ ("://".toList ++ (u.hosts ++ u.tail)) := by
      rw [Uri.text, Uri.rest_of_none rfl]
      rfl
    rw [hout]
    constructor
    · intro hpub hat
      -- the userinfo is cut at an `@` of its own
      obtain ⟨a, b, rfl, ha⟩ := List.eq_append_cons_of_mem hat
      have hcut : u.rest = a ++ '@' :: (b ++ '@' :: (u.hosts ++ u.tail)) := by
        rw [hrest]
        simp
      rw [stripUserinfo_text hcut ha] at hpub
      split at hpub
      · have hlen := congrArg List.length
          (List.append_cancel_left (List.append_cancel_left hpub))
        simp at hlen
        omega
      · exact cut_ne_text hrest hpub.symm
    · intro hat
      rw [stripUserinfo_text hrest hat, if_pos hcolon]
  | none =>
    have hrest := Uri.rest_of_none hinfo
    by_cases hat : '@' ∈ u.tail
    · obtain ⟨a, b, hcut, ha⟩ := List.eq_append_cons_of_mem
        (show '@' ∈ u.rest by rw [hrest]; exact List.mem_append_right _ hat)
      have htake : u.rest.takeWhile (fun c => decide (c ≠ '@')) = a := by
        rw [hcut, List.takeWhile_append_of_pos, List.takeWhile_cons_of_neg (by simp),
          List.append_nil]
        intro c hc
        simpa using fun (h : c = '@') => ha (h ▸ hc)
      rw [stripUserinfo_text hcut ha, htake]
      constructor
      · intro hpub _ hcolon
        rw [if_pos hcolon] at hpub
        exact cut_ne_text hcut hpub
      · intro hfits
        exact if_neg (hfits hat)
    · have hno : '@' ∉ u.rest := by
        rw [hrest, List.mem_append]
        exact not_or.mpr ⟨u.hosts_at, hat⟩
      exact iff_of_true (stripUserinfo_text_of_not_mem hno) fun h => absurd h hat

/-- `https://u:p@ss@h/` -/
def atInPassword : Uri endsAuthority where
  scheme := "https".toList
  userinfo := some "u:p@ss".toList
  hosts := "h".toList
  tail := "/".toList
  scheme_colon := by decide
  userinfo_open := by simp [endsAuthority]
  hosts_open := by simp [endsAuthority]
  hosts_at := by decide
  tail_ends := by simp [endsAuthority]

/-- The part of a password behind an `@` is published. -/
theorem publishes_password : stripUserinfo atInPassword.text = "https://ss@h/".toList ∧
    ¬Publishes atInPassword (stripUserinfo atInPassword.text) :=
  ⟨by decide, fun h => absurd (h (by decide)) (by decide)⟩

end Synora.Manager
