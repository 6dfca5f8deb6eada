import Synora.Net.Credentials
import Synora.Net.Headers

namespace Synora.Net
open Strings Utf8

/-! # The exposed listener is closed to strangers -/

/-! ## Base64 has one text for what it says -/

theorem digit_value {c : Char} {x : ℕ} (h : Digits.value c = some x) :
    x < 64 ∧ base64.digit x = c := by
  obtain ⟨hlt, hget, -⟩ := List.idxOf?_eq_some_iff.mp h
  refine ⟨hlt, ?_⟩
  rw [base64.digit, List.getD_eq_getElem?_getD]
  exact (congrArg (Option.getD · '/') (List.getElem?_eq_getElem hlt)).trans hget

theorem base64_lastGroup {a b c : Char} {bytes : Bytes} (h : Digits.lastGroup a b c = some bytes) :
    base64 bytes = [a, b, c, '='] := by
  simp only [Digits.lastGroup, Option.bind_eq_bind, Option.bind_eq_some_iff] at h
  obtain ⟨x, hvx, y, hvy, h⟩ := h
  obtain ⟨hx, rfl⟩ := digit_value hvx
  obtain ⟨hy, rfl⟩ := digit_value hvy
  have hfirst : (x * 4 + y / 16) / 4 = x := by omega
  split at h
  · rename_i hpad
    obtain ⟨hzero, h⟩ := Option.ite_none_right_eq_some.mp h
    cases h
    have hsecond : (x * 4 + y / 16) % 4 * 16 = y := by omega
    rw [base64, toNat_byte (by omega), hfirst, hsecond, hpad]
  · obtain ⟨z, hvz, hgroup⟩ := Option.bind_eq_some_iff.mp h
    obtain ⟨hzero, hbytes⟩ := Option.ite_none_right_eq_some.mp hgroup
    cases hbytes
    obtain ⟨hz, rfl⟩ := digit_value hvz
    have hsecond : (x * 4 + y / 16) % 4 * 16 + (y % 16 * 16 + z / 4) / 16 = y := by omega
    have hthird : (y % 16 * 16 + z / 4) % 16 * 4 = z := by omega
    rw [base64, toNat_byte (by omega), toNat_byte (by omega), hfirst, hsecond, hthird]

/-- What reads as some bytes is how these bytes are written. -/
theorem base64_of_decode {t : Text} {bytes : Bytes} (h : Digits.decodeBase64 t = some bytes) :
    base64 bytes = t := by
  fun_induction Digits.decodeBase64 t generalizing bytes with
  | case1 =>
    cases h
    rfl
  | case2 a b c => exact base64_lastGroup h
  | case3 a b c d rest => cases h
  | case4 a b c d rest hd ih =>
    simp only [Option.bind_eq_bind, Option.bind_eq_some_iff] at h
    obtain ⟨x, hvx, y, hvy, z, hvz, w, hvw, more, hmore, h⟩ := h
    cases h
    obtain ⟨hx, rfl⟩ := digit_value hvx
    obtain ⟨hy, rfl⟩ := digit_value hvy
    obtain ⟨hz, rfl⟩ := digit_value hvz
    obtain ⟨hw, rfl⟩ := digit_value hvw
    have hfirst : (x * 4 + y / 16) / 4 = x := by omega
    have hsecond : (x * 4 + y / 16) % 4 * 16 + (y % 16 * 16 + z / 4) / 16 = y := by omega
    have hthird : (y % 16 * 16 + z / 4) % 16 * 4 + (z % 4 * 64 + w) / 64 = z := by omega
    have hfourth : (z % 4 * 64 + w) % 64 = w := by omega
    rw [base64, toNat_byte (by omega), toNat_byte (by omega), toNat_byte (by omega), hfirst,
      hsecond, hthird, hfourth, ih hmore]
    rfl
  | case5 => cases h

/-! ## Credentials -/

theorem foldl_diff_eq_zero (l : List (UInt8 × UInt8)) (acc : UInt8) :
    l.foldl (fun diff p => diff ||| (p.1 ^^^ p.2)) acc = 0 ↔ acc = 0 ∧ ∀ p ∈ l, p.1 = p.2 := by
  induction l generalizing acc with
  | nil => simp
  | cons p l ih =>
    rw [List.foldl_cons, ih, UInt8.or_eq_zero_iff, UInt8.xor_eq_zero_iff, List.forall_mem_cons,
      and_assoc]

theorem constantTimeEq_iff {a b : Bytes} : constantTimeEq a b = true ↔ a = b := by
  unfold constantTimeEq
  split_ifs with hlen
  · exact ⟨fun h => h.elim, fun h => absurd (congrArg List.length h) hlen⟩
  · rw [decide_eq_true_iff, foldl_diff_eq_zero]
    refine ⟨fun ⟨_, h⟩ => ?_, fun h => ⟨rfl, ?_⟩⟩
    · exact List.ext_getElem (not_not.mp hlen) fun i hi hi' =>
        h (a[i], b[i]) (List.mem_iff_getElem.mpr
          ⟨i, by rw [List.length_zip]; exact Nat.lt_min.mpr ⟨hi, hi'⟩, List.getElem_zip⟩)
    · subst h
      intro p hp
      obtain ⟨i, hi, rfl⟩ := List.mem_iff_getElem.mp hp
      simp

/-- The credentials that a request shows: those of its first `Proxy-Authorization` field. -/
def shownCredentials (req : Request) : Option Bytes :=
  ((req.headers.filterMap (splitOnce ":".toList)).find? fun p =>
    eqIgnoreAsciiCase p.1 "Proxy-Authorization".toList).bind fun p =>
      (stripPrefix "Basic ".toList (trim p.2)).bind Digits.decodeBase64

/-- The head of a stream is a request that shows this user and this password. -/
def Shows (user pass : Text) (incoming : Bytes) : Prop :=
  ∃ head req, readHead [] incoming = .done head ∧ parseRequest head = some req ∧
    shownCredentials req = some (encode (user ++ ":".toList ++ pass))

theorem authOk_iff {user pass : Text} (hsecret : ¬(user = [] ∧ pass = [])) (req : Request) :
    authOk (expectedAuth user pass) req ↔
      shownCredentials req = some (encode (user ++ ":".toList ++ pass)) := by
  have hexpected : expectedAuth user pass =
      "Basic ".toList ++ base64 (encode (user ++ ":".toList ++ pass)) := by
    simp only [expectedAuth, List.isEmpty_iff, if_neg hsecret, base64AuthLoop_eq]
    rfl
  unfold authOk shownCredentials
  cases (req.headers.filterMap (splitOnce ":".toList)).find? fun p =>
      eqIgnoreAsciiCase p.1 "Proxy-Authorization".toList with
  | none => simp [hexpected]
  | some p =>
    have hne : (expectedAuth user pass).isEmpty = false := by simp [hexpected]
    rw [hne, Bool.false_or, Option.bind_some, constantTimeEq_iff, hexpected]
    constructor
    · intro h
      rw [encode_injective h, stripPrefix_append]
      exact decode_base64 _
    · intro h
      obtain ⟨t, ht, hdecode⟩ := Option.bind_eq_some_iff.mp h
      rw [stripPrefix_eq_some_iff.mp ht, base64_of_decode hdecode]

theorem shows_iff {user pass : Text} (hsecret : ¬(user = [] ∧ pass = [])) {incoming : Bytes} :
    Shows user pass incoming ↔
      ∃ head req, acceptedRequest (expectedAuth user pass) incoming = some (head, req) := by
  constructor
  · rintro ⟨head, req, hread, hparse, hshown⟩
    exact ⟨head, req, accepted_of hread hparse ((authOk_iff hsecret req).mpr hshown)⟩
  · rintro ⟨head, req, h⟩
    obtain ⟨hread, hparse, hauth⟩ := accepted_cases h
    exact ⟨head, req, hread, hparse, (authOk_iff hsecret req).mp hauth⟩

/-! ## What a stranger gets -/

/-- What a connection is answered that is not served. -/
def turnedAway (incoming : Bytes) : Outcome :=
  match readHead [] incoming with
  | .closed => .fail .io
  | .tooLarge => .answer "HTTP/1.1 413 Payload Too Large\r\n\r\n".toList
  | .done head =>
    match parseRequest head with
    | none => .answer badRequest
    | some _ => .answer ("HTTP/1.1 407 Proxy Authentication Required\r\n".toList ++
        "Proxy-Authenticate: Basic realm=\"synora\"\r\n".toList ++
        "Content-Length: 0\r\nConnection: close\r\n\r\n".toList)

theorem serve_refused {crates : UrlCrates} {peer : Peer} {upstream auth : Text} {incoming : Bytes}
    (h : ¬∃ head req, acceptedRequest auth incoming = some (head, req)) :
    serveAuthProxyConn crates peer upstream auth incoming = turnedAway incoming := by
  unfold serveAuthProxyConn turnedAway
  cases hread : readHead [] incoming with
  | closed => rfl
  | tooLarge => rfl
  | done head =>
    dsimp only
    cases hparse : parseRequest head with
    | none => rfl
    | some req =>
      dsimp only
      rw [if_pos]
      exact fun hauth => h ⟨head, req, accepted_of hread hparse hauth⟩

theorem turnedAway_silent (incoming : Bytes) :
    (turnedAway incoming).handshake = [] ∧ (turnedAway incoming).forwarded = none ∧
      (turnedAway incoming).relayed = false := by
  unfold turnedAway
  split
  · exact ⟨rfl, rfl, rfl⟩
  · exact ⟨rfl, rfl, rfl⟩
  · split
    · exact ⟨rfl, rfl, rfl⟩
    · exact ⟨rfl, rfl, rfl⟩

/-! ## What is passed on -/

section
variable {crates : UrlCrates} {peer : Peer} {upstream auth : Text} {incoming head forwarded : Bytes}
  {req : Request} {first : Text}

/-- An HTTP upstream is shown its own credentials and no others. -/
theorem authorization_http {proxy : Url} {credentials : List Text}
    (h : parseRequest head = some req) (hfirst : '\n' ∉ first)
    (hcred : upstreamCredentials crates proxy = .ok credentials) :
    (fieldLines (renderHead first (httpFields req credentials))).filter
      (isField "Proxy-Authorization".toList) = credentials.map encode := by
  have hfields : ∀ line ∈ httpFields req credentials, '\n' ∉ line ∧ line ≠ [] := by
    intro line hline
    simp only [httpFields, Bool.and_assoc, List.mem_append] at hline
    rcases hline with (hline | hline) | hline
    · exact kept_lines h _ line hline
    · split at hline
      · cases hline
      · rw [List.mem_singleton] at hline
        subst hline
        decide
    · exact (credentials_lines hcred line hline).1
  have hname (line : Text) : isField "Proxy-Authorization".toList (encode line) =
      eqIgnoreAsciiCase (headerName line) "Proxy-Authorization".toList := by
    rw [isField, fromUtf8Lossy_encode]
  have hclient : (req.headers.filter fun line => !line.isEmpty && !isProxyField line &&
      (req.isConnect || !eqIgnoreAsciiCase (headerName line) "Connection".toList)).filter
        (isField "Proxy-Authorization".toList ∘ encode) = [] := by
    refine List.filter_eq_nil_iff.mpr fun line hline => ?_
    have hkept := (List.mem_filter.mp hline).2
    simp only [isProxyField, Bool.and_eq_true, Bool.not_eq_true', Bool.or_eq_false_iff] at hkept
    rw [Function.comp_apply, hname, hkept.1.2.1]
    exact Bool.false_ne_true
  have hclose : (if req.isConnect then [] else ["Connection: close".toList]).filter
      (isField "Proxy-Authorization".toList ∘ encode) = [] := by
    split
    · rfl
    · refine List.filter_cons_of_neg ?_
      rw [Function.comp_apply, close_line.1]
      exact Bool.false_ne_true
  have hown : credentials.filter (isField "Proxy-Authorization".toList ∘ encode) = credentials :=
    List.filter_eq_self.mpr fun line hline => (credentials_lines hcred line hline).2
  rw [fieldLines_renderHead hfirst hfields, List.filter_map, httpFields, List.filter_append,
    List.filter_append, hclient, hclose, hown, List.nil_append,
    List.nil_append]

/-- A SOCKS upstream is shown none. -/
theorem authorization_socks (h : parseRequest head = some req) (hfirst : '\n' ∉ first) :
    (fieldLines (renderHead first (socksFields req))).filter
      (isField "Proxy-Authorization".toList) = [] := by
  rw [fieldLines_socks h hfirst]
  exact filter_dropped (isField_asText _)
    (fun line hline => by rw [proxy_of_authorization hline]; rfl) _

theorem authorization_forwarded (hcrates : NoLineBreaks crates)
    (hforwarded : (serveAuthProxyConn crates peer upstream auth incoming).forwarded =
      some forwarded) :
    (fieldLines forwarded).filter (isField "Proxy-Authorization".toList) =
      ownCredentials crates upstream := by
  by_cases hserved : ∃ head req, acceptedRequest auth incoming = some (head, req)
  · obtain ⟨head, req, h⟩ := hserved
    obtain ⟨-, hparse, -⟩ := accepted_cases h
    rw [serve_accepted h] at hforwarded
    unfold ownCredentials
    by_cases hhttp : isHttpUpstream upstream
    · rw [if_pos hhttp] at hforwarded ⊢
      obtain ⟨proxy, credentials, hproxy, hcred, rfl⟩ := serveHttp_forwarded hforwarded
      rw [hproxy]
      dsimp only
      rw [hcred]
      exact authorization_http hparse
        (newline_not_mem_requestLine hparse (newline_not_mem_request hparse).2.1) hcred
    · rw [if_neg hhttp] at hforwarded ⊢
      split at hforwarded
      · obtain ⟨url, hurl, rfl⟩ := serveSocksHttp_forwarded hforwarded
        exact authorization_socks hparse
          (newline_not_mem_requestLine hparse (newline_not_mem_origin hcrates hurl))
      · unfold serveSocksConnect at hforwarded
        split at hforwarded
        · cases hforwarded
        · split at hforwarded <;> cases hforwarded
  · rw [serve_refused hserved, (turnedAway_silent incoming).2.1] at hforwarded
    cases hforwarded

end

/-- A listener with credentials does not so much as look at its upstream for a stream that does not
show them, serves every request that does, and passes no credentials on but the upstream's own. -/
theorem listener_closed (crates : UrlCrates) (peer : Peer) (upstream user pass : Text)
    (incoming : Bytes) (hcrates : NoLineBreaks crates) (hsecret : ¬(user = [] ∧ pass = [])) :
    (¬Shows user pass incoming →
      (turnedAway incoming).handshake = [] ∧ (turnedAway incoming).forwarded = none ∧
      (turnedAway incoming).relayed = false ∧
      ∀ crates' peer' upstream', serveAuthProxyConn crates' peer' upstream'
        (expectedAuth user pass) incoming = turnedAway incoming) ∧
    (Shows user pass incoming → ∃ head req,
      acceptedRequest (expectedAuth user pass) incoming = some (head, req)) ∧
    ∀ forwarded, (serveAuthProxyConn crates peer upstream (expectedAuth user pass)
      incoming).forwarded = some forwarded →
      (fieldLines forwarded).filter (isField "Proxy-Authorization".toList) =
        ownCredentials crates upstream := by
  refine ⟨fun h => ?_, (shows_iff hsecret).mp, fun forwarded => authorization_forwarded hcrates⟩
  obtain ⟨hhandshake, hforwarded, hrelayed⟩ := turnedAway_silent incoming
  exact ⟨hhandshake, hforwarded, hrelayed, fun _ _ _ =>
    serve_refused fun hserved => h ((shows_iff hsecret).mpr hserved)⟩

/-- A stranger asks for a page. -/
theorem listener_closed_stranger : (serveAuthProxyConn pageCrates (openPeer [])
    "http://up:3128".toList (expectedAuth "u".toList "p".toList) pageHead).forwarded = none := by
  have hstranger : ¬Shows "u".toList "p".toList pageHead := by
    rintro ⟨head, req, hread, hparse, hshown⟩
    obtain ⟨hread', hparse', -⟩ := accepted_cases pageHead_accepted
    obtain rfl : pageHead = head := HeadRead.done.inj (hread'.symm.trans hread)
    obtain rfl : pageRequest = req := Option.some.inj (hparse'.symm.trans hparse)
    have hnone : shownCredentials pageRequest = none := by decide +kernel
    rw [hnone] at hshown
    cases hshown
  obtain ⟨-, hforwarded, -, haway⟩ := (listener_closed pageCrates (openPeer [])
    "http://up:3128".toList "u".toList "p".toList pageHead pageCrates_lines (by decide)).1 hstranger
  rw [haway, hforwarded]

end Synora.Net
