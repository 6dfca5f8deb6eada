import Mathlib.Data.List.Infix
import Synora.Net.Socks

namespace Synora.Net
open Strings Utf8 Exchange

/-! # The exposed proxy -/

def eqIgnoreAsciiCase (t u : Text) : Bool := decide (toAsciiLowercase t = toAsciiLowercase u)

/-- `base64_auth`, on the bytes of the credentials. -/
def base64 : Bytes → Text
  | [] => []
  | [a] => [digit (a.toNat / 4), digit (a.toNat % 4 * 16), '=', '=']
  | [a, b] => [digit (a.toNat / 4), digit (a.toNat % 4 * 16 + b.toNat / 16),
      digit (b.toNat % 16 * 4), '=']
  | a :: b :: c :: rest => [digit (a.toNat / 4), digit (a.toNat % 4 * 16 + b.toNat / 16),
      digit (b.toNat % 16 * 4 + c.toNat / 64), digit (c.toNat % 64)] ++ base64 rest
where
  digit (n : ℕ) : Char :=
    "ABCDEFGHIJKLMNOPQRSTUVWXYZabcdefghijklmnopqrstuvwxyz0123456789+/".toList.getD n '/'

def base64Auth (user pass : Text) : Text := base64 (encode (user ++ ":".toList ++ pass))

def constantTimeEq (a b : Bytes) : Bool :=
  if a.length ≠ b.length then false
  else decide ((a.zip b).foldl (fun diff p => diff ||| (p.1 ^^^ p.2)) 0 = (0 : UInt8))

/-- What the code reads of a `reqwest::Url`. -/
structure Url where
  scheme : Text
  hostStr : Option Text
  portOrKnownDefault : Option UInt16
  path : Text
  query : Option Text
  username : Text
  password : Option Text
deriving DecidableEq, Repr

/-- The `reqwest` and `percent_encoding` crates. -/
structure UrlCrates where
  /-- `reqwest::Url::parse` -/
  parse : Text → Option Url
  /-- `percent_decode_str(..).decode_utf8()` -/
  decodeUtf8 : Text → Option Text

/-- What the upstream side does. -/
structure Peer where
  connects : Text → UInt16 → Bool
  /-- The rewritten head can be written. -/
  accepts : Bool
  /-- What a SOCKS proxy sends. -/
  socks : Bytes

/-- What one connection comes to. -/
structure Outcome where
  client : Bytes
  /-- What `socks5_connect_tunnel` writes. -/
  handshake : Bytes
  /-- The rewritten head. -/
  forwarded : Option Bytes
  relayed : Bool
  error : Option RouteError
deriving DecidableEq, Repr

def Outcome.answer (response : Text) : Outcome := ⟨encode response, [], none, false, none⟩

def Outcome.fail (e : RouteError) : Outcome := ⟨[], [], none, false, some e⟩

def badGateway : Text := "HTTP/1.1 502 Bad Gateway\r\n\r\n".toList

def badRequest : Text := "HTTP/1.1 400 Bad Request\r\n\r\n".toList

/-! ## The request head -/

inductive HeadRead
  | closed | tooLarge
  | done (head : Bytes)
deriving DecidableEq, Repr

/-- `head.windows(4).any(|w| w == b"\r\n\r\n")` -/
def headEnds (head : Bytes) : Bool := head.tails.any ([0x0d, 0x0a, 0x0d, 0x0a] : Bytes).isPrefixOf

/-- The head is read byte by byte; what follows it stays in the socket. -/
def readHead (head : Bytes) : Bytes → HeadRead
  | [] => if headEnds head then .done head else .closed
  | b :: rest =>
    if headEnds head then .done head
    else if (head ++ [b]).length > 8192 then .tooLarge
    else readHead (head ++ [b]) rest

theorem headEnds_iff {head : Bytes} :
    headEnds head = true ↔ [0x0d, 0x0a, 0x0d, 0x0a] <:+: head := by
  unfold headEnds
  rw [List.any_eq_true, List.infix_iff_prefix_suffix]
  simp only [List.mem_tails, List.isPrefixOf_iff_prefix, and_comm]

/-- A head is read up to its first blank line. -/
theorem readHead_done (head tail rest : Bytes)
    (hend : headEnds (head ++ tail)) (hfirst : ¬headEnds (head ++ tail).dropLast)
    (hlen : (head ++ tail).length ≤ 8192) :
    readHead head (tail ++ rest) = .done (head ++ tail) := by
  induction tail generalizing head with
  | nil =>
    rw [List.append_nil] at hend ⊢
    cases rest with
    | nil => exact if_pos hend
    | cons b rest => exact if_pos hend
  | cons b tail ih =>
    have hcons : head ++ b :: tail = head ++ [b] ++ tail := by simp
    have hopen : ¬headEnds head := by
      intro h
      apply hfirst
      rw [headEnds_iff] at h ⊢
      rw [List.dropLast_append_of_ne_nil (List.cons_ne_nil b tail)]
      exact h.trans (List.prefix_append head _).isInfix
    have hshort : ¬(head ++ [b]).length > 8192 := by
      rw [hcons, List.length_append] at hlen
      omega
    rw [hcons] at hend hfirst hlen ⊢
    rw [List.cons_append, readHead, if_neg hopen, if_neg hshort]
    exact ih _ hend hfirst hlen

structure Request where
  method : Text
  target : Text
  version : Text
  /-- The lines after the request line. -/
  headers : List Text
deriving DecidableEq, Repr

def parseRequest (head : Bytes) : Option Request :=
  let ls := lines (fromUtf8Lossy head)
  match splitWhitespace (ls.headD []) with
  | method :: target :: version :: _ => some ⟨method, target, version, ls.tail⟩
  | _ => none

def headerName (line : Text) : Text := ((splitOnce ":".toList line).map Prod.fst).getD []

def Request.isConnect (req : Request) : Bool := eqIgnoreAsciiCase req.method "CONNECT".toList

/-- Without expected credentials everyone may pass. -/
def authOk (expectedAuth : Text) (req : Request) : Bool :=
  expectedAuth.isEmpty ||
    match (req.headers.filterMap (splitOnce ":".toList)).find? fun p =>
        eqIgnoreAsciiCase p.1 "Proxy-Authorization".toList with
    | some (_, value) => constantTimeEq (encode (trim value)) (encode expectedAuth)
    | none => false

/-! ## Rewriting -/

def renderHead (first : Text) (fields : List Text) : Bytes :=
  encode (first ++ "\r\n".toList ++ fields.flatMap (· ++ "\r\n".toList) ++ "\r\n".toList)

def Request.requestLine (req : Request) (target : Text) : Text :=
  req.method ++ " ".toList ++ target ++ " ".toList ++ req.version

def isProxyField (line : Text) : Bool :=
  eqIgnoreAsciiCase (headerName line) "Proxy-Authorization".toList ||
    eqIgnoreAsciiCase (headerName line) "Proxy-Connection".toList

/-- The upstream proxy's own credentials. -/
def upstreamCredentials (crates : UrlCrates) (proxy : Url) : Except RouteError (List Text) :=
  if proxy.username.isEmpty ∧ proxy.password = none then .ok []
  else match crates.decodeUtf8 proxy.username with
    | none => .error (.badResponse "invalid upstream username encoding".toList)
    | some user =>
      match crates.decodeUtf8 (proxy.password.getD []) with
      | none => .error (.badResponse "invalid upstream password encoding".toList)
      | some pass => .ok ["Proxy-Authorization: Basic ".toList ++ base64Auth user pass]

/-- The header lines for an HTTP upstream, which get its credentials and, except for a tunnel, a
`Connection` of their own. -/
def httpFields (req : Request) (credentials : List Text) : List Text :=
  (req.headers.filter fun line => !line.isEmpty && !isProxyField line &&
    (req.isConnect || !eqIgnoreAsciiCase (headerName line) "Connection".toList)) ++
    (if req.isConnect then [] else ["Connection: close".toList]) ++ credentials

/-- The header lines for the origin server behind a SOCKS upstream. -/
def socksFields (req : Request) : List Text :=
  req.headers.filter fun line => !line.isEmpty && !isProxyField line

def originOf (url : Url) : Text :=
  (if url.path.isEmpty then "/".toList else url.path) ++
    match url.query with
    | some query => "?".toList ++ query
    | none => []

/-! ## Serving a connection -/

def trimBrackets (host : Text) : Text :=
  trimEnd (fun c => decide (c = ']')) (trimStart (fun c => decide (c = '[')) host)

def serveHttp (crates : UrlCrates) (peer : Peer) (upstream : Text) (req : Request) : Outcome :=
  match crates.parse upstream with
  | none => .fail (.badResponse "invalid HTTP upstream URL".toList)
  | some proxy =>
    match proxy.hostStr with
    | none => .fail (.badResponse "HTTP upstream requires a hostname".toList)
    | some host =>
      if ¬peer.connects (trimBrackets host) (proxy.portOrKnownDefault.getD 80) then
        .answer badGateway
      else match upstreamCredentials crates proxy with
        | .error e => .fail e
        | .ok credentials =>
          let forwarded := renderHead (req.requestLine req.target) (httpFields req credentials)
          if peer.accepts then ⟨[], [], some forwarded, true, none⟩
          else ⟨encode badGateway, [], some forwarded, false, none⟩

/-- `socks5_connect_tunnel`, from the connection to the proxy on. -/
def openTunnel (peer : Peer) (upstream host : Text) (port : UInt16) :
    Except RouteError Unit × Bytes :=
  if ¬peer.connects (urlHostPort upstream).1 (urlHostPort upstream).2 then (.error .io, [])
  else
    let r := socks5ConnectTunnel host port ⟨peer.socks, []⟩
    (r.1, r.2.written)

/-- The target of an absolute URL, or the answer to one that cannot be served. -/
def urlTarget (crates : UrlCrates) (req : Request) : Except Text (Url × Text × UInt16) :=
  match crates.parse req.target with
  | none => .error badRequest
  | some url =>
    if url.scheme ≠ "http".toList then .error "HTTP/1.1 405 Method Not Allowed\r\n\r\n".toList
    else match url.hostStr with
      | none => .error badRequest
      | some host => .ok (url, host, url.portOrKnownDefault.getD 80)

/-- The target of a CONNECT request. -/
def connectTarget (req : Request) : Except RouteError (Text × UInt16) :=
  match rsplitOnce ':' req.target with
  | none => .error (.badResponse ("bad CONNECT target ".toList ++ req.target))
  | some (host, port) =>
    match parseU16 port with
    | none => .error (.badResponse "bad port".toList)
    | some p => .ok (host, p)

def serveSocksHttp (crates : UrlCrates) (peer : Peer) (upstream : Text) (req : Request) : Outcome :=
  match urlTarget crates req with
  | .error response => .answer response
  | .ok (url, host, port) =>
    match openTunnel peer upstream host port with
    | (.error _, handshake) => ⟨encode badGateway, handshake, none, false, none⟩
    | (.ok _, handshake) =>
      let forwarded := renderHead (req.requestLine (originOf url)) (socksFields req)
      if peer.accepts then ⟨[], handshake, some forwarded, true, none⟩
      else ⟨encode badGateway, handshake, some forwarded, false, none⟩

def serveSocksConnect (peer : Peer) (upstream : Text) (req : Request) : Outcome :=
  match connectTarget req with
  | .error e => .fail e
  | .ok (host, port) =>
    match openTunnel peer upstream host port with
    | (.error _, handshake) => ⟨encode badGateway, handshake, none, false, none⟩
    | (.ok _, handshake) =>
      ⟨encode "HTTP/1.1 200 Connection Established\r\n\r\n".toList, handshake, none, true, none⟩

def isHttpUpstream (upstream : Text) : Bool := "http://".toList.isPrefixOf upstream

def serveAuthProxyConn (crates : UrlCrates) (peer : Peer) (upstream expectedAuth : Text)
    (incoming : Bytes) : Outcome :=
  match readHead [] incoming with
  | .closed => .fail .io
  | .tooLarge => .answer "HTTP/1.1 413 Payload Too Large\r\n\r\n".toList
  | .done head =>
    match parseRequest head with
    | none => .answer badRequest
    | some req =>
      if ¬authOk expectedAuth req then
        .answer ("HTTP/1.1 407 Proxy Authentication Required\r\n".toList ++
          "Proxy-Authenticate: Basic realm=\"synora\"\r\n".toList ++
          "Content-Length: 0\r\nConnection: close\r\n\r\n".toList)
      else if isHttpUpstream upstream then serveHttp crates peer upstream req
      else if ¬req.isConnect then serveSocksHttp crates peer upstream req
      else serveSocksConnect peer upstream req

/-! ## The target of the tunnel -/

/-- A request that is served, with its head. -/
def acceptedRequest (expectedAuth : Text) (incoming : Bytes) : Option (Bytes × Request) :=
  match readHead [] incoming with
  | .done head => ((parseRequest head).filter (authOk expectedAuth)).map fun req => (head, req)
  | _ => none

/-- The host and the port that a client asks for: those of `host:port`, or of an absolute URL. -/
def Asks (crates : UrlCrates) (req : Request) (host : Text) (port : UInt16) : Prop :=
  if req.isConnect then
    ∃ digits, req.target = host ++ ':' :: digits ∧ ':' ∉ digits ∧ parseU16 digits = some port
  else ∃ url, crates.parse req.target = some url ∧ url.scheme = "http".toList ∧
    url.hostStr = some host ∧ url.portOrKnownDefault.getD 80 = port

section
variable {crates : UrlCrates} {peer : Peer} {upstream expectedAuth : Text} {incoming head : Bytes}
  {req : Request} {host : Text} {port : UInt16}

theorem accepted_of (hread : readHead [] incoming = .done head)
    (hparse : parseRequest head = some req) (hauth : authOk expectedAuth req) :
    acceptedRequest expectedAuth incoming = some (head, req) := by
  unfold acceptedRequest
  rw [hread]
  dsimp only
  rw [hparse, Option.filter_some, if_pos hauth]
  rfl

theorem accepted_cases (h : acceptedRequest expectedAuth incoming = some (head, req)) :
    readHead [] incoming = .done head ∧ parseRequest head = some req ∧ authOk expectedAuth req := by
  unfold acceptedRequest at h
  split at h
  · rename_i head' hread
    obtain ⟨req', hreq, heq⟩ := Option.map_eq_some_iff.mp h
    obtain ⟨rfl, rfl⟩ := Prod.mk.inj heq
    exact ⟨hread, Option.filter_eq_some_iff.mp hreq⟩
  · cases h

theorem serve_accepted (h : acceptedRequest expectedAuth incoming = some (head, req)) :
    serveAuthProxyConn crates peer upstream expectedAuth incoming =
      if isHttpUpstream upstream then serveHttp crates peer upstream req
      else if ¬req.isConnect then serveSocksHttp crates peer upstream req
      else serveSocksConnect peer upstream req := by
  obtain ⟨hread, hparse, hauth⟩ := accepted_cases h
  unfold serveAuthProxyConn
  rw [hread]
  dsimp only
  rw [hparse]
  dsimp only
  rw [if_neg (not_not.mpr hauth)]

theorem connectTarget_of_asks (hconnect : req.isConnect) (h : Asks crates req host port) :
    connectTarget req = .ok (host, port) := by
  unfold Asks at h
  rw [if_pos hconnect] at h
  obtain ⟨digits, htarget, hdigits, hport⟩ := h
  unfold connectTarget
  rw [htarget, rsplitOnce_append hdigits]
  dsimp only
  rw [hport]

theorem urlTarget_of_asks (hconnect : ¬req.isConnect) (h : Asks crates req host port) :
    ∃ url, urlTarget crates req = .ok (url, host, port) := by
  unfold Asks at h
  rw [if_neg hconnect] at h
  obtain ⟨url, hparse, hscheme, hhost, hport⟩ := h
  refine ⟨url, ?_⟩
  unfold urlTarget
  rw [hparse]
  dsimp only
  rw [if_neg (not_not.mpr hscheme), hhost]
  dsimp only
  rw [hport]

/-- Whatever comes of it, a tunnel is asked for with what `socks5_connect_tunnel` writes. -/
theorem serve_handshake (h : acceptedRequest expectedAuth incoming = some (head, req))
    (hsocks : isHttpUpstream upstream = false) (htarget : Asks crates req host port) :
    (serveAuthProxyConn crates peer upstream expectedAuth incoming).handshake =
      (openTunnel peer upstream host port).2 := by
  rw [serve_accepted h, hsocks, if_neg (by simp)]
  by_cases hconnect : req.isConnect
  · rw [if_neg (not_not.mpr hconnect)]
    unfold serveSocksConnect
    rw [connectTarget_of_asks hconnect htarget]
    dsimp only
    rcases openTunnel peer upstream host port with ⟨e | done, handshake⟩
    · rfl
    · rfl
  · rw [if_pos hconnect]
    unfold serveSocksHttp
    obtain ⟨url, hurl⟩ := urlTarget_of_asks hconnect htarget
    rw [hurl]
    dsimp only
    rcases openTunnel peer upstream host port with ⟨e | done, handshake⟩
    · rfl
    · dsimp only
      split
      · rfl
      · rfl

end

/-- No URL is parsed, and texts without `%` are their own decoding. -/
def plainCrates : UrlCrates := ⟨fun _ => none, some⟩

def openPeer (socks : Bytes) : Peer := ⟨fun _ _ => true, true, socks⟩

def connectHead (target : Text) : Bytes :=
  encode ("CONNECT ".toList ++ target ++ " HTTP/1.1\r\n\r\n".toList)

def connectTo (target : Text) : Request := ⟨"CONNECT".toList, target, "HTTP/1.1".toList, [[]]⟩

/-- A host of 256 letters. -/
def longHost : Text := List.replicate 256 'a'

end Synora.Net
