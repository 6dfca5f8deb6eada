import Synora.Net.Expose

namespace Synora.Net
open Strings Utf8

/-! ## The header lines of a head -/

def fieldLines (head : Bytes) : List Bytes := (byteLines head).tail.filter fun line => !line.isEmpty

def isField (name : Text) (line : Bytes) : Bool :=
  eqIgnoreAsciiCase (headerName (fromUtf8Lossy line)) name

/-- A field that says `close`. -/
def closes (line : Bytes) : Bool :=
  match splitOnce ":".toList (fromUtf8Lossy line) with
  | some (_, value) => eqIgnoreAsciiCase (trim value) "close".toList
  | none => false

/-- Neither a field of the proxy nor a `Connection`. -/
def isOther (line : Bytes) : Bool :=
  !isField "Proxy-Authorization".toList line && !isField "Proxy-Connection".toList line &&
    !isField "Connection".toList line

/-- The upstream proxy's own credentials, as a line; a SOCKS upstream has none. -/
def ownCredentials (crates : UrlCrates) (upstream : Text) : List Bytes :=
  if isHttpUpstream upstream then
    match crates.parse upstream with
    | none => []
    | some proxy =>
      match upstreamCredentials crates proxy with
      | .ok credentials => credentials.map encode
      | .error _ => []
  else []

/-- The rewritten head keeps the client's credentials back, closes the connection, and is otherwise
the head of the client. -/
structure Rewrites (own : List Bytes) (head forwarded : Bytes) : Prop where
  authorization : (fieldLines forwarded).filter (isField "Proxy-Authorization".toList) = own
  proxyConnection : (fieldLines forwarded).filter (isField "Proxy-Connection".toList) = []
  connection : ∃ line, (fieldLines forwarded).filter (isField "Connection".toList) = [line] ∧
    closes line
  others : (fieldLines forwarded).filter isOther = (fieldLines head).filter isOther

/-- The client itself closes the connection, with one field. -/
def ClosedByClient (head : Bytes) : Prop :=
  ∃ line, (fieldLines head).filter (isField "Connection".toList) = [line] ∧ closes line

/-- No crate puts a line break into a part of a parsed URL. -/
def NoLineBreaks (crates : UrlCrates) : Prop :=
  ∀ t url, crates.parse t = some url →
    '\n' ∉ url.path ∧ ∀ query, url.query = some query → '\n' ∉ query

/-! ## Lines that are written and read again -/

theorem newline_not_mem_encode {t : Text} (h : '\n' ∉ t) : (0x0a : UInt8) ∉ encode t := by
  intro hmem
  obtain ⟨u, v, huv⟩ := List.append_of_mem hmem
  have hread := fromUtf8Lossy_encode t
  rw [huv, fromUtf8Lossy_ascii (by decide)] at hread
  apply h
  rw [← hread]
  exact List.mem_append_right _ List.mem_cons_self

theorem byteLines_cons {line : Bytes} (h : (0x0a : UInt8) ∉ line) (rest : Bytes) :
    byteLines (line ++ 0x0d :: 0x0a :: rest) = line :: byteLines rest := by
  have hcr : (0x0a : UInt8) ∉ line ++ [0x0d] := by simp [h]
  have hsplit : line ++ 0x0d :: 0x0a :: rest = line ++ [0x0d] ++ 0x0a :: rest := by simp
  obtain ⟨p, ps, hps⟩ := List.exists_cons_of_ne_nil (List.splitOn_ne_nil 0x0a rest)
  unfold byteLines
  rw [hsplit, List.splitOn_append_cons_self_of_not_mem hcr, hps, List.dropLast_cons_cons,
    List.map_cons, List.getLast?_cons_cons, stripCr, if_pos List.getLast?_concat,
    List.dropLast_concat]
  rfl

/-- The header lines of a head that is written from its lines. -/
theorem fieldLines_renderHead {first : Text} {fields : List Text} (hfirst : '\n' ∉ first)
    (hfields : ∀ line ∈ fields, '\n' ∉ line ∧ line ≠ []) :
    fieldLines (renderHead first fields) = fields.map encode := by
  have hcrlf : encode "\r\n".toList = [0x0d, 0x0a] := by decide
  have hblock : byteLines (encode (fields.flatMap (· ++ "\r\n".toList) ++ "\r\n".toList)) =
      fields.map encode ++ [[]] := by
    induction fields with
    | nil => decide
    | cons line fields ih =>
      obtain ⟨⟨hline, -⟩, hrest⟩ := List.forall_mem_cons.mp hfields
      rw [List.flatMap_cons, List.append_assoc, List.append_assoc, encode_append, encode_append,
        hcrlf, List.cons_append, List.cons_append, List.nil_append,
        byteLines_cons (newline_not_mem_encode hline), ih hrest]
      rfl
  unfold fieldLines renderHead
  rw [List.append_assoc, List.append_assoc, encode_append, encode_append, hcrlf, List.cons_append,
    List.cons_append, List.nil_append, byteLines_cons (newline_not_mem_encode hfirst),
    List.tail_cons, hblock, List.filter_append]
  have hnonempty : ∀ line ∈ fields.map encode, (!line.isEmpty) = true := by
    intro line hline
    obtain ⟨t, ht, rfl⟩ := List.mem_map.mp hline
    have hne : encode t ≠ [] := by
      intro hnil
      apply (hfields t ht).2
      rw [← fromUtf8Lossy_encode t, hnil]
      rfl
    simpa using hne
  rw [List.filter_eq_self.mpr hnonempty]
  simp

/-! ## The fields of the client -/

section
variable {head : Bytes} {req : Request}

theorem parseRequest_cases (h : parseRequest head = some req) :
    (∃ more, splitWhitespace ((lines (fromUtf8Lossy head)).headD []) =
      req.method :: req.target :: req.version :: more) ∧
    req.headers = (lines (fromUtf8Lossy head)).tail := by
  unfold parseRequest at h
  dsimp only at h
  split at h
  · rename_i more hsplit
    rw [← Option.some.inj h]
    exact ⟨⟨more, hsplit⟩, rfl⟩
  · cases h

/-- The client's header lines, read as text, are what the code goes through. -/
theorem headers_filter (h : parseRequest head = some req) (p : Text → Bool) :
    req.headers.filter (fun line => !line.isEmpty && p line) =
      ((fieldLines head).filter fun line => p (fromUtf8Lossy line)).map fromUtf8Lossy := by
  rw [(parseRequest_cases h).2, lines_fromUtf8Lossy, ← List.map_tail, List.filter_map, fieldLines,
    List.filter_filter]
  congr 1
  apply List.filter_congr
  intro line _
  cases line with
  | nil => exact (Bool.and_false _).symm
  | cons b rest =>
    have hne : fromUtf8Lossy (b :: rest) ≠ [] := fun hnil => by
      simpa using fromUtf8Lossy_eq_nil.mp hnil
    simp [hne]

theorem newline_not_mem_words {t word : Text} (h : word ∈ splitWhitespace t) : '\n' ∉ word := by
  intro hmem
  have hspace := mem_splitOnP (List.mem_filter.mp h).1 '\n' hmem
  exact absurd hspace (by decide)

/-- The words of the request line are on one line. -/
theorem newline_not_mem_request (h : parseRequest head = some req) :
    '\n' ∉ req.method ∧ '\n' ∉ req.target ∧ '\n' ∉ req.version := by
  obtain ⟨⟨more, hwords⟩, -⟩ := parseRequest_cases h
  have hword (word : Text) (hmem : word ∈ req.method :: req.target :: req.version :: more) :
      '\n' ∉ word := newline_not_mem_words (hwords ▸ hmem)
  exact ⟨hword _ (by simp), hword _ (by simp), hword _ (by simp)⟩

/-- The request line of a rewritten head is one line when its target is. -/
theorem newline_not_mem_requestLine (h : parseRequest head = some req) {target : Text}
    (htarget : '\n' ∉ target) : '\n' ∉ req.requestLine target := by
  obtain ⟨hmethod, -, hversion⟩ := newline_not_mem_request h
  unfold Request.requestLine
  simp [hmethod, hversion, htarget]

theorem newline_not_mem_headers (h : parseRequest head = some req) :
    ∀ line ∈ req.headers, '\n' ∉ line := by
  rw [(parseRequest_cases h).2]
  exact fun line hline => newline_not_mem_lines (List.mem_of_mem_tail hline)

end

/-! ## Lines sorted by name -/

/-- The bytes of a line as they are forwarded. -/
def asText (line : Bytes) : Bytes := encode (fromUtf8Lossy line)

theorem isField_asText (name : Text) (line : Bytes) :
    isField name (asText line) = isField name line := by
  unfold isField asText
  rw [fromUtf8Lossy_encode]

theorem closes_asText (line : Bytes) : closes (asText line) = closes line := by
  unfold closes asText
  rw [fromUtf8Lossy_encode]

theorem isOther_asText (line : Bytes) : isOther (asText line) = isOther line := by
  unfold isOther
  rw [isField_asText, isField_asText, isField_asText]

/-- A line has one name. -/
theorem isField_ne {n m : Text} (hnm : toAsciiLowercase n ≠ toAsciiLowercase m) {line : Bytes}
    (h : isField n line) : isField m line = false := by
  unfold isField eqIgnoreAsciiCase at h ⊢
  rw [decide_eq_true_eq] at h
  rw [decide_eq_false_iff_not, h]
  exact hnm

theorem filter_map_asText {q : Bytes → Bool} (hq : ∀ line, q (asText line) = q line)
    (ls : List Bytes) : (ls.map asText).filter q = (ls.filter q).map asText := by
  rw [List.filter_map]
  congr 1
  exact List.filter_congr fun line _ => hq line

theorem map_asText_eq_iff {ls : List Bytes} :
    ls.map asText = ls ↔ ∀ line ∈ ls, fromUtf8 line ≠ none := by
  have hself : ls.map asText = ls ↔ ∀ line ∈ ls, asText line = line := by
    conv_lhs => rhs; rw [← List.map_id ls]
    exact List.map_inj_left
  rw [hself]
  refine forall₂_congr fun line _ => ?_
  unfold fromUtf8 asText
  split
  · rename_i h
    simp [h]
  · rename_i h
    simp [h]

/-- What a filter finds among the lines that are kept and forwarded. -/
theorem filter_kept {q : Bytes → Bool} (hq : ∀ line, q (asText line) = q line)
    (keep : Bytes → Bool) (ls : List Bytes) : ((ls.filter keep).map asText).filter q =
      (ls.filter fun line => q line && keep line).map asText := by
  rw [filter_map_asText hq, List.filter_filter]

theorem filter_dropped {q keep : Bytes → Bool} (hq : ∀ line, q (asText line) = q line)
    (h : ∀ line, q line → keep line = false) (ls : List Bytes) :
    ((ls.filter keep).map asText).filter q = [] := by
  rw [filter_kept hq, List.map_eq_nil_iff, List.filter_eq_nil_iff]
  intro line _
  cases hline : q line with
  | false => simp
  | true => simp [h line hline]

theorem filter_passed {q keep : Bytes → Bool} (hq : ∀ line, q (asText line) = q line)
    (h : ∀ line, q line → keep line) (ls : List Bytes) :
    ((ls.filter keep).map asText).filter q = (ls.filter q).map asText := by
  rw [filter_kept hq]
  congr 1
  apply List.filter_congr
  intro line _
  cases hline : q line with
  | false => rfl
  | true => simp [h line hline]

/-- A field of the proxy, by its bytes. -/
def isProxyLine (line : Bytes) : Bool :=
  isField "Proxy-Authorization".toList line || isField "Proxy-Connection".toList line

theorem proxy_of_authorization {line : Bytes} (h : isField "Proxy-Authorization".toList line) :
    isProxyLine line = true := Bool.or_eq_true_iff.mpr (Or.inl h)

theorem proxy_of_connection {line : Bytes} (h : isField "Proxy-Connection".toList line) :
    isProxyLine line = true := Bool.or_eq_true_iff.mpr (Or.inr h)

theorem connection_not_proxy {line : Bytes} (h : isField "Connection".toList line) :
    isProxyLine line = false := by
  unfold isProxyLine
  rw [isField_ne (by decide) h, isField_ne (by decide) h]
  rfl

theorem other_not_proxy {line : Bytes} (h : isOther line) :
    isProxyLine line = false ∧ isField "Connection".toList line = false := by
  simp only [isOther, Bool.and_eq_true, Bool.not_eq_true'] at h
  unfold isProxyLine
  rw [h.1.1, h.1.2]
  exact ⟨rfl, h.2⟩

section
variable {head : Bytes} {req : Request} {first : Text}

/-- The lines that a rewritten head keeps are lines, and not empty. -/
theorem kept_lines (h : parseRequest head = some req) (keep : Text → Bool) :
    ∀ line ∈ req.headers.filter (fun line => !line.isEmpty && keep line),
      '\n' ∉ line ∧ line ≠ [] := by
  intro line hline
  obtain ⟨hmem, hkeep⟩ := List.mem_filter.mp hline
  refine ⟨newline_not_mem_headers h line hmem, ?_⟩
  rintro rfl
  cases hkeep

/-- What a SOCKS upstream is sent is what the client sent, without the fields of the proxy. -/
theorem fieldLines_socks (h : parseRequest head = some req) (hfirst : '\n' ∉ first) :
    fieldLines (renderHead first (socksFields req)) =
      ((fieldLines head).filter fun line => !isProxyLine line).map asText := by
  unfold socksFields
  rw [fieldLines_renderHead hfirst (kept_lines h _), headers_filter h, List.map_map]
  rfl

/-- Behind a SOCKS upstream the client has to close the connection. -/
theorem socks_rewrites_iff (h : parseRequest head = some req) (hfirst : '\n' ∉ first) :
    Rewrites [] head (renderHead first (socksFields req)) ↔ ClosedByClient head ∧
      ∀ line ∈ (fieldLines head).filter isOther, fromUtf8 line ≠ none := by
  have hlines := fieldLines_socks h hfirst
  have hproxy {name : Text} (hname : ∀ line, isField name line → isProxyLine line) :
      (fieldLines (renderHead first (socksFields req))).filter (isField name) = [] := by
    rw [hlines]
    exact filter_dropped (isField_asText _) (fun line hline => by rw [hname line hline]; rfl) _
  have hconnection : (fieldLines (renderHead first (socksFields req))).filter
      (isField "Connection".toList) =
      ((fieldLines head).filter (isField "Connection".toList)).map asText := by
    rw [hlines]
    exact filter_passed (isField_asText _)
      (fun line hline => by rw [connection_not_proxy hline]; rfl) _
  have hothers : (fieldLines (renderHead first (socksFields req))).filter isOther =
      ((fieldLines head).filter isOther).map asText := by
    rw [hlines]
    exact filter_passed isOther_asText
      (fun line hline => by rw [(other_not_proxy hline).1]; rfl) _
  rw [← map_asText_eq_iff]
  constructor
  · rintro ⟨-, -, ⟨line, hline, hcloses⟩, hrest⟩
    rw [hconnection, List.map_eq_singleton_iff] at hline
    obtain ⟨sent, hsent, rfl⟩ := hline
    exact ⟨⟨sent, hsent, by rwa [closes_asText] at hcloses⟩, by rwa [hothers] at hrest⟩
  · rintro ⟨⟨sent, hsent, hcloses⟩, hrest⟩
    refine ⟨hproxy fun _ => proxy_of_authorization, hproxy fun _ => proxy_of_connection,
      ⟨asText sent, ?_, ?_⟩, hothers.trans hrest⟩
    · rw [hconnection, hsent]
      rfl
    · rwa [closes_asText]

theorem newline_not_mem_base64 (bytes : Bytes) : '\n' ∉ base64 bytes := by
  have hdigit (n : ℕ) : '\n' ≠ base64.digit n := by
    unfold base64.digit
    rw [List.getD_eq_getElem?_getD]
    cases hget : "ABCDEFGHIJKLMNOPQRSTUVWXYZabcdefghijklmnopqrstuvwxyz0123456789+/".toList[n]? with
    | none => decide
    | some c =>
      rintro rfl
      exact absurd (List.mem_of_getElem? hget) (by decide)
  induction bytes using base64.induct with
  | case1 => simp [base64]
  | case2 a => simp [base64, hdigit]
  | case3 a b => simp [base64, hdigit]
  | case4 a b c rest ih => simp [base64, hdigit, ih]

/-- The credentials of the upstream proxy are one line of that name. -/
theorem credentials_lines {crates : UrlCrates} {proxy : Url} {credentials : List Text}
    (h : upstreamCredentials crates proxy = .ok credentials) : ∀ line ∈ credentials,
      ('\n' ∉ line ∧ line ≠ []) ∧ isField "Proxy-Authorization".toList (encode line) := by
  unfold upstreamCredentials at h
  split at h
  · cases h
    simp
  · split at h
    · cases h
    split at h
    · cases h
    · cases h
      intro line hline
      rw [List.mem_singleton] at hline
      subst hline
      have hcolon : "Proxy-Authorization: Basic ".toList =
          "Proxy-Authorization".toList ++ ':' :: " Basic ".toList := by decide
      constructor
      · constructor
        · rw [List.mem_append, not_or]
          exact ⟨by decide, newline_not_mem_base64 _⟩
        · exact nofun
      · unfold isField headerName
        rw [fromUtf8Lossy_encode, hcolon, List.append_assoc, List.cons_append,
          show ":".toList = [':'] from rfl,
          splitOnce_singleton (t := "Proxy-Authorization".toList) (by decide), Option.map_some,
          Option.getD_some]
        exact decide_eq_true rfl

/-- The proxy's own line is a `Connection` and nothing else. -/
theorem close_line :
    isField "Proxy-Authorization".toList (encode "Connection: close".toList) = false ∧
    isField "Proxy-Connection".toList (encode "Connection: close".toList) = false ∧
    isField "Connection".toList (encode "Connection: close".toList) = true ∧
    isOther (encode "Connection: close".toList) = false ∧
    closes (encode "Connection: close".toList) = true := by decide +kernel

section
variable {crates : UrlCrates} {proxy : Url} {credentials : List Text}

/-- What an HTTP upstream is sent ends with two kinds of lines that the client did not send. -/
theorem fieldLines_http (h : parseRequest head = some req) (hfirst : '\n' ∉ first)
    (hplain : req.isConnect = false) (hcred : upstreamCredentials crates proxy = .ok credentials) :
    fieldLines (renderHead first (httpFields req credentials)) =
      ((fieldLines head).filter fun line =>
        !isProxyLine line && !isField "Connection".toList line).map asText ++
      ([encode "Connection: close".toList] ++ credentials.map encode) := by
  unfold httpFields
  simp only [hplain, Bool.false_or, Bool.false_eq_true, if_false, Bool.and_assoc]
  rw [fieldLines_renderHead hfirst, List.map_append, List.map_append, headers_filter h,
    List.map_map, List.append_assoc]
  · rfl
  · intro line hline
    rw [List.append_assoc, List.mem_append, List.mem_append, List.mem_singleton] at hline
    rcases hline with hline | rfl | hline
    · exact kept_lines h _ line hline
    · decide
    · exact (credentials_lines hcred line hline).1

/-- The lines of the upstream's own credentials have one name only. -/
theorem filter_credentials (keep : Bool) {q : Bytes → Bool}
    (hcred : upstreamCredentials crates proxy = .ok credentials)
    (hq : ∀ line, isField "Proxy-Authorization".toList line → q line = keep) :
    (credentials.map encode).filter q = if keep then credentials.map encode else [] := by
  have hlines : ∀ line ∈ credentials.map encode, q line = keep := by
    intro line hline
    obtain ⟨t, ht, rfl⟩ := List.mem_map.mp hline
    exact hq _ (credentials_lines hcred t ht).2
  cases keep with
  | true => exact List.filter_eq_self.mpr hlines
  | false =>
    rw [List.filter_eq_nil_iff.mpr fun line hline => Bool.eq_false_iff.mp (hlines line hline)]
    rfl

/-- An HTTP upstream gets a `Connection: close` of its own. -/
theorem http_rewrites_iff (h : parseRequest head = some req) (hfirst : '\n' ∉ first)
    (hplain : req.isConnect = false) (hcred : upstreamCredentials crates proxy = .ok credentials) :
    Rewrites (credentials.map encode) head (renderHead first (httpFields req credentials)) ↔
      ∀ line ∈ (fieldLines head).filter isOther, fromUtf8 line ≠ none := by
  obtain ⟨hclose₁, hclose₂, hclose₃, hclose₄, hclose₅⟩ := close_line
  -- each filter is taken of the client's lines, of `Connection: close` and of the credentials
  have hlines := fieldLines_http h hfirst hplain hcred
  have hauth : (fieldLines (renderHead first (httpFields req credentials))).filter
      (isField "Proxy-Authorization".toList) = credentials.map encode := by
    rw [hlines, List.filter_append, List.filter_append, filter_dropped (isField_asText _),
      List.filter_cons_of_neg (Bool.eq_false_iff.mp hclose₁),
      filter_credentials true hcred fun line hline => hline]
    · rfl
    · intro line hline
      rw [proxy_of_authorization hline]
      rfl
  have hproxy : (fieldLines (renderHead first (httpFields req credentials))).filter
      (isField "Proxy-Connection".toList) = [] := by
    rw [hlines, List.filter_append, List.filter_append, filter_dropped (isField_asText _),
      List.filter_cons_of_neg (Bool.eq_false_iff.mp hclose₂),
      filter_credentials false hcred fun line => isField_ne (by decide)]
    · rfl
    · intro line hline
      rw [proxy_of_connection hline]
      rfl
  have hconnection : (fieldLines (renderHead first (httpFields req credentials))).filter
      (isField "Connection".toList) = [encode "Connection: close".toList] := by
    rw [hlines, List.filter_append, List.filter_append, filter_dropped (isField_asText _),
      List.filter_cons_of_pos hclose₃,
      filter_credentials false hcred fun line => isField_ne (by decide)]
    · rfl
    · intro line hline
      rw [hline]
      exact Bool.and_false _
  have hothers : (fieldLines (renderHead first (httpFields req credentials))).filter isOther =
      ((fieldLines head).filter isOther).map asText := by
    rw [hlines, List.filter_append, List.filter_append, filter_passed isOther_asText,
      List.filter_cons_of_neg (Bool.eq_false_iff.mp hclose₄),
      filter_credentials false hcred]
    · exact List.append_nil _
    · intro line hline
      unfold isOther
      rw [hline]
      rfl
    · intro line hline
      obtain ⟨hp, hc⟩ := other_not_proxy hline
      rw [hp, hc]
      rfl
  rw [← map_asText_eq_iff]
  constructor
  · intro hrew
    rw [← hothers]
    exact hrew.others
  · exact fun hrest => ⟨hauth, hproxy, ⟨_, hconnection, hclose₅⟩, hothers.trans hrest⟩

end

end

section
variable {crates : UrlCrates} {peer : Peer} {upstream : Text} {req : Request} {forwarded : Bytes}

/-- What an HTTP upstream is sent. -/
theorem serveHttp_forwarded (h : (serveHttp crates peer upstream req).forwarded = some forwarded) :
    ∃ proxy credentials, crates.parse upstream = some proxy ∧
      upstreamCredentials crates proxy = .ok credentials ∧
      forwarded = renderHead (req.requestLine req.target) (httpFields req credentials) := by
  unfold serveHttp at h
  split at h
  · cases h
  rename_i proxy hproxy
  split at h
  · cases h
  split at h
  · cases h
  split at h
  · cases h
  rename_i credentials hcred
  refine ⟨proxy, credentials, hproxy, hcred, ?_⟩
  dsimp only at h
  split at h
  · exact (Option.some.inj h).symm
  · exact (Option.some.inj h).symm

/-- What is sent through a SOCKS upstream. -/
theorem serveSocksHttp_forwarded
    (h : (serveSocksHttp crates peer upstream req).forwarded = some forwarded) :
    ∃ url, crates.parse req.target = some url ∧
      forwarded = renderHead (req.requestLine (originOf url)) (socksFields req) := by
  unfold serveSocksHttp at h
  split at h
  · cases h
  rename_i url host port hurl
  have hparse : crates.parse req.target = some url := by
    unfold urlTarget at hurl
    split at hurl
    · cases hurl
    rename_i url' hparse
    split at hurl
    · cases hurl
    split at hurl
    · cases hurl
    · cases hurl
      exact hparse
  refine ⟨url, hparse, ?_⟩
  split at h
  · cases h
  dsimp only at h
  split at h
  · exact (Option.some.inj h).symm
  · exact (Option.some.inj h).symm

end

theorem newline_not_mem_origin {crates : UrlCrates} (hcrates : NoLineBreaks crates) {t : Text}
    {url : Url} (h : crates.parse t = some url) : '\n' ∉ originOf url := by
  obtain ⟨hpath, hquery⟩ := hcrates t url h
  unfold originOf
  rw [List.mem_append, not_or]
  constructor
  · split
    · decide
    · exact hpath
  · cases hq : url.query with
    | none => simp
    | some query =>
      rw [List.mem_append, not_or]
      exact ⟨by decide, hquery query hq⟩

/-- The rewritten head of a request that is no CONNECT keeps the listener's credentials back
exactly when the other header lines are text and, behind a SOCKS upstream, the client itself sends
one `Connection: close`. -/
theorem rewrites_iff (crates : UrlCrates) (peer : Peer) (upstream expectedAuth : Text)
    (incoming head forwarded : Bytes) (req : Request) (hcrates : NoLineBreaks crates)
    (h : acceptedRequest expectedAuth incoming = some (head, req)) (hplain : ¬req.isConnect)
    (hforwarded : (serveAuthProxyConn crates peer upstream expectedAuth incoming).forwarded =
      some forwarded) :
    Rewrites (ownCredentials crates upstream) head forwarded ↔
      (isHttpUpstream upstream ∨ ClosedByClient head) ∧
        ∀ line ∈ (fieldLines head).filter isOther, fromUtf8 line ≠ none := by
  obtain ⟨-, hparse, -⟩ := accepted_cases h
  rw [serve_accepted h] at hforwarded
  unfold ownCredentials
  by_cases hhttp : isHttpUpstream upstream
  · rw [if_pos hhttp] at hforwarded ⊢
    obtain ⟨proxy, credentials, hproxy, hcred, rfl⟩ := serveHttp_forwarded hforwarded
    rw [hproxy]
    dsimp only
    rw [hcred, and_iff_right (Or.inl hhttp)]
    exact http_rewrites_iff hparse
      (newline_not_mem_requestLine hparse (newline_not_mem_request hparse).2.1)
      (by simpa using hplain) hcred
  · rw [if_neg hhttp, if_pos hplain] at hforwarded
    rw [if_neg hhttp, or_iff_right hhttp]
    obtain ⟨url, hurl, rfl⟩ := serveSocksHttp_forwarded hforwarded
    exact socks_rewrites_iff hparse
      (newline_not_mem_requestLine hparse (newline_not_mem_origin hcrates hurl))

/-- `reqwest::Url` on an HTTP proxy and on one page. -/
def pageCrates : UrlCrates where
  parse t :=
    if t = "http://up:3128".toList then
      some ⟨"http".toList, some "up".toList, some 3128, "/".toList, none, [], none⟩
    else if t = "http://o/x".toList then
      some ⟨"http".toList, some "o".toList, some 80, "/x".toList, none, [], none⟩
    else none
  decodeUtf8 := some

theorem pageCrates_lines : NoLineBreaks pageCrates := by
  intro t url h
  unfold pageCrates at h
  dsimp only at h
  split at h
  · cases h
    exact ⟨by decide, by simp⟩
  · split at h
    · cases h
      exact ⟨by decide, by simp⟩
    · cases h

def pageHead : Bytes := encode
  "GET http://o/x HTTP/1.1\r\nHost: o\r\nConnection: keep-alive\r\n\r\n".toList

def pageRequest : Request := ⟨"GET".toList, "http://o/x".toList, "HTTP/1.1".toList,
  ["Host: o".toList, "Connection: keep-alive".toList, []]⟩

theorem pageHead_accepted : acceptedRequest [] pageHead = some (pageHead, pageRequest) := by
  have hread := readHead_done [] pageHead [] (by decide +kernel) (by decide +kernel)
    (by decide +kernel)
  rw [List.append_nil, List.nil_append] at hread
  exact accepted_of hread (by decide +kernel) (by decide +kernel)

/-- The page as it is asked for through the HTTP proxy. -/
def pageForwarded : Bytes := encode
  "GET http://o/x HTTP/1.1\r\nHost: o\r\nConnection: close\r\n\r\n".toList

theorem rewrites_iff_page :
    (serveAuthProxyConn pageCrates (openPeer []) "http://up:3128".toList []
      pageHead).forwarded = some pageForwarded ∧
    Rewrites (ownCredentials pageCrates "http://up:3128".toList) pageHead
      pageForwarded := by
  have hforwarded : (serveAuthProxyConn pageCrates (openPeer [])
      "http://up:3128".toList [] pageHead).forwarded = some pageForwarded := by
    rw [serve_accepted pageHead_accepted]
    decide +kernel
  exact ⟨hforwarded, (rewrites_iff pageCrates (openPeer []) _ [] _ _ _ pageRequest
    pageCrates_lines pageHead_accepted (by decide +kernel) hforwarded).mpr
    ⟨Or.inl (by decide +kernel), by decide +kernel⟩⟩

/-- The page as it is asked for through the SOCKS proxy. -/
def keptAlive : Bytes := encode
  "GET /x HTTP/1.1\r\nHost: o\r\nConnection: keep-alive\r\n\r\n".toList

/-- Through a SOCKS upstream, the client's `Connection: keep-alive` goes on to the server. -/
theorem keep_alive_forwarded :
    ¬∀ (crates : UrlCrates) (peer : Peer) (upstream expectedAuth : Text)
      (incoming head forwarded : Bytes) (req : Request), NoLineBreaks crates →
      acceptedRequest expectedAuth incoming = some (head, req) → ¬req.isConnect →
      (serveAuthProxyConn crates peer upstream expectedAuth incoming).forwarded =
        some forwarded → Rewrites (ownCredentials crates upstream) head forwarded := by
  intro hall
  have hforwarded : (serveAuthProxyConn pageCrates
      (openPeer [0x05, 0x00, 0x05, 0x00, 0x00, 0x01, 0x00, 0x00, 0x00, 0x00, 0x00, 0x00])
      "socks5://127.0.0.1:40000".toList [] pageHead).forwarded = some keptAlive := by
    rw [serve_accepted pageHead_accepted]
    decide +kernel
  obtain ⟨line, hline, hcloses⟩ := (hall pageCrates _ _ [] pageHead pageHead keptAlive pageRequest
    pageCrates_lines pageHead_accepted (by decide +kernel) hforwarded).connection
  have hfields : (fieldLines keptAlive).filter (isField "Connection".toList) =
      [encode "Connection: keep-alive".toList] := by decide +kernel
  rw [hfields, List.singleton_inj] at hline
  rw [← hline] at hcloses
  exact absurd hcloses (by decide +kernel)

end Synora.Net
