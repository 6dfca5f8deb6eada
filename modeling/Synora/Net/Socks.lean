import Synora.Lib.Exchange
import Synora.Mirror.Listing

namespace Synora.Net
open Strings Utf8 Exchange Mirror

inductive RouteError
  | io
  | badResponse (message : Text)
deriving DecidableEq, Repr

/-! ## SOCKS5 -/

/-- `str::parse::<u16>` -/
def parseU16 (t : Text) : Option UInt16 :=
  (parseU64 t).bind fun n => if n < 2 ^ 16 then some (UInt16.ofNat n) else none

/-- `u16::to_be_bytes` -/
def toBeBytes (port : UInt16) : Bytes :=
  [UInt8.ofNat (port.toNat / 256), UInt8.ofNat (port.toNat % 256)]

/-- The format `{:#04x}`. -/
def hex04 (b : UInt8) : Text :=
  "0x".toList ++ [Nat.digitChar (b.toNat / 16), Nat.digitChar (b.toNat % 16)]

/-- Split a plain URL into host and port. -/
def urlHostPort (url : Text) : Text × UInt16 :=
  let rest := ((splitOnce "://".toList url).map Prod.snd).getD url
  let rest := rest.takeWhile fun c => !decide (c = '/' ∨ c = '?' ∨ c = '#')
  match stripPrefix "[".toList rest with
  | some inner =>
    match splitOnce "]:".toList inner with
    | some (host, port) => (host, (parseU16 (port.takeWhile fun c => !decide (c = '/'))).getD 80)
    | none => (trimEnd (fun c => decide (c = ']')) inner, 80)
  | none =>
    match rsplitOnce ':' rest with
    | some (host, port) =>
      match parseU16 port with
      | some p => (host, p)
      | none => (rest, 80)
    | none => (rest, 80)

/-- The greeting, with no authentication as the only method, and the server's answer. -/
def negotiate : Io RouteError Unit := do
  writeAll [0x05, 0x01, 0x00]
  let method ← readExact .io 2
  if method.getD 0 0 ≠ 0x05 ∨ method.getD 1 0 ≠ 0x00 then
    throw (.badResponse ("SOCKS5 auth method ".toList ++ hex04 (method.getD 1 0)))
  else pure ()

/-- A CONNECT request for a domain; the length is cut off to one byte. -/
def connectRequest (host : Text) (port : UInt16) : Bytes :=
  [0x05, 0x01, 0x00, 0x03, UInt8.ofNat (encode host).length] ++ encode host ++ toBeBytes port

/-- The whole length of a reply, as the first ten bytes and one more tell it. -/
def replyLength (head : Bytes) : Io RouteError ℕ :=
  if head.getD 3 0 = 0x01 then pure 10
  else if head.getD 3 0 = 0x04 then pure 22
  else if head.getD 3 0 = 0x03 then do
    let len ← readExact .io 1
    pure (4 + 1 + (len.getD 0 0).toNat + 2)
  else throw (.badResponse ("SOCKS5 reply ATYP ".toList ++ Nat.toDigits 10 (head.getD 3 0).toNat))

/-- What is left of a reply whose length is known. -/
def readRest (total : ℕ) : Io RouteError Unit :=
  if total > 10 then do
    let _ ← readExact .io (total - 10)
    pure ()
  else pure ()

def readReply : Io RouteError Unit := do
  let head ← readExact .io 10
  if head.getD 0 0 ≠ 0x05 ∨ head.getD 1 0 ≠ 0x00 then
    throw (.badResponse ("SOCKS5 CONNECT failed: ".toList ++ hex04 (head.getD 1 0)))
  else do
    let total ← replyLength head
    readRest total

/-- `socks5_connect_tunnel` on the connection to the proxy. -/
def socks5ConnectTunnel (targetHost : Text) (targetPort : UInt16) : Io RouteError Unit := do
  negotiate
  writeAll (connectRequest targetHost targetPort)
  readReply

/-- `manual_socks5_get` on the connection to the proxy, up to the request that it sends through the
tunnel. -/
def manualSocks5Get (probeUrl : Text) : Io RouteError Unit := do
  let target := urlHostPort probeUrl
  negotiate
  if (encode target.1).length > 255 then throw (.badResponse "SOCKS5 host too long".toList)
  else do
    writeAll (connectRequest target.1 target.2)
    readReply
    writeAll (encode ("GET ".toList ++ probeUrl ++ " HTTP/1.0\r\nHost: ".toList ++ target.1 ++
      "\r\nConnection: close\r\n\r\n".toList))

/-! ## Replies -/

/-- The address of a SOCKS5 message. -/
inductive Address
  | ipv4 (bytes : Bytes) (h : bytes.length = 4)
  | domain (name : Bytes) (h : name.length ≤ 255)
  | ipv6 (bytes : Bytes) (h : bytes.length = 16)

def Address.bytes : Address → Bytes
  | .ipv4 bytes _ => 0x01 :: bytes
  | .domain name _ => 0x03 :: UInt8.ofNat name.length :: name
  | .ipv6 bytes _ => 0x04 :: bytes

/-- A reply that grants the connection. -/
def successReply (address : Address) (port : UInt16) : Bytes :=
  [0x05, 0x00, 0x00] ++ address.bytes ++ toBeBytes port

/-- What is run on a connection leaves exactly the bytes of the tunnel. -/
def ReadsExactly (m : Io RouteError Unit) (reply tunnel : Bytes) : Prop :=
  ∃ written, m ⟨[0x05, 0x00] ++ (reply ++ tunnel), []⟩ = (.ok (), ⟨tunnel, written⟩)

/-- A reply that is not granted, or whose address is of no known kind. -/
def Refusal (stream : Bytes) : Prop :=
  stream.getD 1 0 ≠ 0x00 ∨
    (stream.getD 3 0 ≠ 0x01 ∧ stream.getD 3 0 ≠ 0x03 ∧ stream.getD 3 0 ≠ 0x04)

/-- The eleventh byte of a reply with a domain happens to tell the rest of its length. -/
def Aligned (port : UInt16) : Address → Prop
  | .domain name h => 4 ≤ name.length ∧
      name.length = 4 + (((successReply (.domain name h) port).getD 10 0).toNat - 3)
  | _ => True

section
variable {written : Bytes}

theorem negotiate_accepted (rest : Bytes) :
    negotiate ⟨[0x05, 0x00] ++ rest, written⟩ =
      (.ok (), ⟨rest, written ++ [0x05, 0x01, 0x00]⟩) := by
  unfold negotiate
  have hread : readExact RouteError.io 2 ⟨[0x05, 0x00] ++ rest, written ++ [0x05, 0x01, 0x00]⟩ =
      (.ok [0x05, 0x00], ⟨rest, written ++ [0x05, 0x01, 0x00]⟩) :=
    readExact_append (by rfl) rest _
  rw [bind_ok (writeAll_run _ _ _), bind_ok hread]
  rfl

theorem readRest_of_le {stream : Bytes} {total : ℕ} (h : total - 10 ≤ stream.length) :
    readRest total ⟨stream, written⟩ = (.ok (), ⟨stream.drop (total - 10), written⟩) := by
  unfold readRest
  by_cases hlong : total > 10
  · rw [if_pos hlong, bind_ok (readExact_of_le h _)]
    rfl
  · rw [if_neg hlong, Nat.sub_eq_zero_of_le (by omega)]
    rfl

theorem readRest_of_lt {stream : Bytes} {total : ℕ} (h : stream.length < total - 10) :
    readRest total ⟨stream, written⟩ = (.error .io, ⟨[], written⟩) := by
  unfold readRest
  rw [if_pos (by omega), bind_error (readExact_of_lt h _)]

theorem readReply_short {stream : Bytes} (hlen : stream.length < 10) :
    readReply ⟨stream, written⟩ = (.error .io, ⟨[], written⟩) := by
  unfold readReply
  rw [bind_error (readExact_of_lt hlen _)]

theorem getD_take {stream : Bytes} {n i : ℕ} (hi : i < n) :
    (stream.take n).getD i 0 = stream.getD i 0 := by
  rw [List.getD_eq_getElem?_getD, List.getD_eq_getElem?_getD, List.getElem?_take_of_lt hi]

/-- The first ten bytes of a reply are read and then looked at. -/
theorem readReply_head {stream : Bytes} (hlen : 10 ≤ stream.length)
    (hver : stream.getD 0 0 = 0x05) (hrep : stream.getD 1 0 = 0x00) :
    readReply ⟨stream, written⟩ =
      (replyLength (stream.take 10) >>= readRest) ⟨stream.drop 10, written⟩ := by
  unfold readReply
  rw [bind_ok (readExact_of_le hlen _), getD_take (by omega), getD_take (by omega), hver, hrep]
  rfl

theorem readReply_refused {stream : Bytes}
    (h : stream.getD 0 0 ≠ 0x05 ∨ stream.getD 1 0 ≠ 0x00) :
    ∃ e, (readReply ⟨stream, written⟩).1 = .error e := by
  by_cases hlen : 10 ≤ stream.length
  · unfold readReply
    rw [bind_ok (readExact_of_le hlen _), getD_take (by omega), getD_take (by omega), if_pos h]
    exact ⟨_, rfl⟩
  · rw [readReply_short (by omega)]
    exact ⟨_, rfl⟩

theorem readReply_unknown {stream : Bytes}
    (h : stream.getD 3 0 ≠ 0x01 ∧ stream.getD 3 0 ≠ 0x03 ∧ stream.getD 3 0 ≠ 0x04) :
    ∃ e, (readReply ⟨stream, written⟩).1 = .error e := by
  by_cases hok : stream.getD 0 0 = 0x05 ∧ stream.getD 1 0 = 0x00
  · by_cases hlen : 10 ≤ stream.length
    · rw [readReply_head hlen hok.1 hok.2]
      unfold replyLength
      rw [getD_take (by omega), if_neg h.1, if_neg h.2.2, if_neg h.2.1]
      exact ⟨_, rfl⟩
    · rw [readReply_short (by omega)]
      exact ⟨_, rfl⟩
  · exact readReply_refused (not_and_or.mp hok)

/-- A reply with a domain: the eleventh byte is taken for the length. -/
theorem readReply_domain {stream : Bytes} (hver : stream.getD 0 0 = 0x05)
    (hrep : stream.getD 1 0 = 0x00) (hatyp : stream.getD 3 0 = 0x03) :
    readReply ⟨stream, written⟩ =
      if 11 + ((stream.getD 10 0).toNat - 3) ≤ stream.length then
        (.ok (), ⟨stream.drop (11 + ((stream.getD 10 0).toNat - 3)), written⟩)
      else (.error .io, ⟨[], written⟩) := by
  by_cases hlen : 10 ≤ stream.length
  · rw [readReply_head hlen hver hrep]
    have hdomain : replyLength (stream.take 10) = (do
        let len ← readExact .io 1
        pure (4 + 1 + (len.getD 0 0).toNat + 2)) := by
      unfold replyLength
      rw [getD_take (by omega), hatyp]
      rfl
    have hdrop : (stream.drop 10).length = stream.length - 10 := List.length_drop
    rw [hdomain, bind_assoc]
    by_cases hten : stream.length = 10
    · rw [bind_error (readExact_of_lt (by omega) _), if_neg (by omega)]
    · rw [bind_ok (readExact_of_le (by omega) _)]
      have hlast : ((stream.drop 10).take 1).getD 0 0 = stream.getD 10 0 := by
        rw [getD_take (by omega), List.getD_eq_getElem?_getD, List.getElem?_drop,
          List.getD_eq_getElem?_getD]
      have hdrop' : ((stream.drop 10).drop 1).length = stream.length - 11 := by
        rw [List.length_drop, hdrop]
        omega
      rw [pure_bind, hlast]
      generalize (stream.getD 10 0).toNat = b
      split
      · rw [readRest_of_le (by omega), List.drop_drop, List.drop_drop]
        have hcount : 10 + (1 + (4 + 1 + b + 2 - 10)) = 11 + (b - 3) := by omega
        rw [hcount]
      · rw [readRest_of_lt (by omega)]
  · rw [readReply_short (by omega), if_neg (by omega)]

theorem readReply_refusal {stream : Bytes} (h : Refusal stream) :
    ∃ e, (readReply ⟨stream, written⟩).1 = .error e := by
  rcases h with h | h
  · exact readReply_refused (Or.inr h)
  · exact readReply_unknown h

/-- An address of fixed length is read to its end. -/
theorem readReply_fixed {reply : Bytes} (tunnel : Bytes)
    (hver : (reply ++ tunnel).getD 0 0 = 0x05) (hrep : (reply ++ tunnel).getD 1 0 = 0x00)
    (hlen : 10 ≤ reply.length)
    (htotal : replyLength ((reply ++ tunnel).take 10) = pure reply.length) :
    readReply ⟨reply ++ tunnel, written⟩ = (.ok (), ⟨tunnel, written⟩) := by
  have hstream : (reply ++ tunnel).length = reply.length + tunnel.length := List.length_append
  have hrest : reply.length - 10 ≤ ((reply ++ tunnel).drop 10).length := by
    rw [List.length_drop]
    omega
  rw [readReply_head (by omega) hver hrep, htotal, pure_bind, readRest_of_le hrest, List.drop_drop,
    Nat.add_sub_cancel' hlen, List.drop_left]

/-- A reply with a domain is read to its end exactly when its eleventh byte says so. -/
theorem readReply_domain_iff {reply : Bytes} (tunnel : Bytes)
    (hver : (reply ++ tunnel).getD 0 0 = 0x05) (hrep : (reply ++ tunnel).getD 1 0 = 0x00)
    (hatyp : (reply ++ tunnel).getD 3 0 = 0x03) :
    (∃ w, readReply ⟨reply ++ tunnel, written⟩ = (.ok (), ⟨tunnel, w⟩)) ↔
      11 + (((reply ++ tunnel).getD 10 0).toNat - 3) = reply.length := by
  have hstream : (reply ++ tunnel).length = reply.length + tunnel.length := List.length_append
  rw [readReply_domain hver hrep hatyp]
  generalize ((reply ++ tunnel).getD 10 0).toNat = b
  constructor
  · rintro ⟨w, h⟩
    split at h
    · rename_i hcount
      have hleft := congrArg List.length (Conn.mk.inj (Prod.mk.inj h).2).1
      rw [List.length_drop] at hleft
      omega
    · cases (Prod.mk.inj h).1
  · intro hcount
    refine ⟨written, ?_⟩
    rw [if_pos (by omega), List.drop_left' hcount.symm]

/-- A granted reply is read exactly when it is aligned. -/
theorem readReply_exact_iff (address : Address) (port : UInt16) (tunnel : Bytes) :
    (∃ w, readReply ⟨successReply address port ++ tunnel, written⟩ = (.ok (), ⟨tunnel, w⟩)) ↔
      Aligned port address := by
  cases address with
  | ipv4 a ha =>
    have hlen : (successReply (.ipv4 a ha) port).length = 10 := by
      simp [successReply, Address.bytes, toBeBytes, ha]
    refine iff_of_true ⟨written, readReply_fixed tunnel rfl rfl (by omega) ?_⟩ trivial
    rw [hlen]
    rfl
  | ipv6 a ha =>
    have hlen : (successReply (.ipv6 a ha) port).length = 22 := by
      simp [successReply, Address.bytes, toBeBytes, ha]
    refine iff_of_true ⟨written, readReply_fixed tunnel rfl rfl (by omega) ?_⟩ trivial
    rw [hlen]
    rfl
  | domain name hname =>
    have hlen : (successReply (.domain name hname) port).length = 7 + name.length := by
      simp [successReply, Address.bytes, toBeBytes]
      omega
    rw [readReply_domain_iff tunnel rfl rfl rfl]
    unfold Aligned
    dsimp only
    generalize successReply (.domain name hname) port = reply at hlen ⊢
    by_cases hfour : 4 ≤ name.length
    · rw [List.getD_eq_getElem?_getD, List.getElem?_append_left (by omega),
        ← List.getD_eq_getElem?_getD, and_iff_right hfour]
      omega
    · -- the reply is shorter than the eleven bytes that are read of it
      refine iff_of_false ?_ (fun h => hfour h.1)
      omega

theorem tunnel_run (host : Text) (port : UInt16) (stream : Bytes) :
    socks5ConnectTunnel host port ⟨[0x05, 0x00] ++ stream, []⟩ =
      readReply ⟨stream, [0x05, 0x01, 0x00] ++ connectRequest host port⟩ := by
  unfold socks5ConnectTunnel
  rw [bind_ok (negotiate_accepted stream), bind_ok (writeAll_run _ _ _), List.nil_append]

theorem manual_run {probeUrl : Text} (hhost : (encode (urlHostPort probeUrl).1).length ≤ 255)
    (stream : Bytes) : ∃ request, manualSocks5Get probeUrl ⟨[0x05, 0x00] ++ stream, []⟩ =
      (readReply >>= fun _ => writeAll request) ⟨stream, [0x05, 0x01, 0x00] ++
        connectRequest (urlHostPort probeUrl).1 (urlHostPort probeUrl).2⟩ := by
  unfold manualSocks5Get
  rw [bind_ok (negotiate_accepted stream), if_neg (by omega), bind_ok (writeAll_run _ _ _),
    List.nil_append]
  exact ⟨_, rfl⟩

theorem readReply_writeAll_iff {request stream tunnel : Bytes} :
    (∃ w, (readReply >>= fun _ => writeAll request) ⟨stream, written⟩ = (.ok (), ⟨tunnel, w⟩)) ↔
      ∃ w, readReply ⟨stream, written⟩ = (.ok (), ⟨tunnel, w⟩) := by
  rcases hread : readReply ⟨stream, written⟩ with ⟨e | done, incoming, after⟩
  · rw [bind_error hread]
  · rw [bind_ok hread, writeAll_run]
    have hincoming {x y z : Bytes}
        (h : ((.ok (), ⟨x, y⟩) : Except RouteError Unit × Conn) = (.ok (), ⟨tunnel, z⟩)) :
        x = tunnel := (Conn.mk.inj (Prod.mk.inj h).2).1
    constructor
    · rintro ⟨w, h⟩
      rw [hincoming h]
      exact ⟨after, rfl⟩
    · rintro ⟨w, h⟩
      rw [hincoming h]
      exact ⟨_, rfl⟩

end

/-- A granted reply is read exactly, by both clients, when its address is an IP address or the
eleventh byte of the reply happens to fit; every refusal is an error. -/
theorem reply_exact_iff (host probeUrl : Text) (port : UInt16)
    (hhost : (encode (urlHostPort probeUrl).1).length ≤ 255) :
    (∀ (address : Address) (bound : UInt16) (tunnel : Bytes),
      (ReadsExactly (socks5ConnectTunnel host port) (successReply address bound) tunnel ∧
        ReadsExactly (manualSocks5Get probeUrl) (successReply address bound) tunnel) ↔
      Aligned bound address) ∧
    ∀ stream, Refusal stream →
      (∃ e, (socks5ConnectTunnel host port ⟨[0x05, 0x00] ++ stream, []⟩).1 = .error e) ∧
      ∃ e, (manualSocks5Get probeUrl ⟨[0x05, 0x00] ++ stream, []⟩).1 = .error e := by
  constructor
  · intro address bound tunnel
    obtain ⟨request, hmanual⟩ := manual_run hhost (successReply address bound ++ tunnel)
    unfold ReadsExactly
    rw [tunnel_run, hmanual, readReply_writeAll_iff, readReply_exact_iff, readReply_exact_iff,
      and_self]
  · intro stream hrefusal
    obtain ⟨request, hmanual⟩ := manual_run hhost stream
    rw [tunnel_run, hmanual]
    refine ⟨readReply_refusal hrefusal, ?_⟩
    obtain ⟨e, he⟩ := readReply_refusal hrefusal
    exact ⟨e, by rw [bind_error (Prod.ext he rfl)]⟩

theorem reply_exact_iff_loopback :
    (encode (urlHostPort "http://ip.example/".toList).1).length ≤ 255 ∧
    ReadsExactly (socks5ConnectTunnel "example.org".toList 443)
      (successReply (.ipv4 [127, 0, 0, 1] rfl) 80) [1, 2, 3] ∧
    ReadsExactly (manualSocks5Get "http://ip.example/".toList)
      (successReply (.ipv4 [127, 0, 0, 1] rfl) 80) [1, 2, 3] := by
  have hhost : (encode (urlHostPort "http://ip.example/".toList).1).length ≤ 255 := by
    decide +kernel
  have h := (reply_exact_iff "example.org".toList "http://ip.example/".toList 443 hhost).1
    (.ipv4 [127, 0, 0, 1] rfl) 80 [1, 2, 3]
  exact ⟨hhost, (h.mpr trivial).1, (h.mpr trivial).2⟩

/-- A reply that names `localhost`: a letter of the name is taken for its length. -/
theorem domain_reply_misread :
    ¬∀ (host probeUrl : Text) (port : UInt16),
      (encode (urlHostPort probeUrl).1).length ≤ 255 →
      ∀ (address : Address) (bound : UInt16) (tunnel : Bytes),
        ReadsExactly (socks5ConnectTunnel host port) (successReply address bound) tunnel ∧
        ReadsExactly (manualSocks5Get probeUrl) (successReply address bound) tunnel := by
  intro hall
  let reply := successReply (.domain (encode "localhost".toList) (by decide)) 80
  obtain ⟨⟨w, h⟩, -⟩ := hall "example.org".toList "http://ip.example/".toList 443
    (by decide +kernel) (.domain (encode "localhost".toList) (by decide)) 80 []
  have herr : (socks5ConnectTunnel "example.org".toList 443
      ⟨[0x05, 0x00] ++ (reply ++ []), []⟩).1.isOk = false := by decide +kernel
  rw [h] at herr
  cases herr

/-! ## Requests -/

/-- A CONNECT message under the grammar of SOCKS5. -/
structure ConnectMessage where
  atyp : UInt8
  host : Bytes
  port : ℕ
deriving DecidableEq, Repr

/-- The address, as long as its kind or its first byte says, and the port. -/
def decodeAddress (atyp : UInt8) (len : ℕ) (rest : Bytes) : Option (ConnectMessage × Bytes) :=
  match rest.drop len with
  | hi :: lo :: rest' => some (⟨atyp, rest.take len, hi.toNat * 256 + lo.toNat⟩, rest')
  | _ => none

/-- The CONNECT message that a stream begins with, and what follows it. -/
def decodeConnect : Bytes → Option (ConnectMessage × Bytes)
  | 0x05 :: 0x01 :: 0x00 :: 0x01 :: rest => decodeAddress 0x01 4 rest
  | 0x05 :: 0x01 :: 0x00 :: 0x04 :: rest => decodeAddress 0x04 16 rest
  | 0x05 :: 0x01 :: 0x00 :: 0x03 :: len :: rest => decodeAddress 0x03 len.toNat rest
  | _ => none

/-- What is written to the proxy: nothing, only the greeting when the attempt is refused, or the
greeting and exactly one CONNECT message for the target. -/
def NamesTarget (host : Text) (port : UInt16) (written : Bytes) : Prop :=
  written = [] ∨ written = [0x05, 0x01, 0x00] ∨
    ∃ request, written = [0x05, 0x01, 0x00] ++ request ∧
      decodeConnect request = some (⟨0x03, encode host, port.toNat⟩, [])

theorem silent_readReply : Silent readReply := by
  have hlength (head : Bytes) : Silent (replyLength head) := by
    unfold replyLength
    refine (silent_pure _).ite ((silent_pure _).ite (Silent.ite ?_ (silent_throw _)))
    exact (silent_readExact _ _).bind fun len => silent_pure _
  have hrest (total : ℕ) : Silent (readRest total) := by
    unfold readRest
    exact ((silent_readExact _ _).bind fun _ => silent_pure _).ite (silent_pure _)
  unfold readReply
  exact (silent_readExact _ _).bind fun head =>
    (silent_throw _).ite ((hlength head).bind hrest)

theorem negotiate_refused {incoming : Bytes} (h : ¬[0x05, 0x00] <+: incoming) (written : Bytes) :
    ∃ e s, negotiate ⟨incoming, written⟩ = (.error e, s) ∧
      s.written = written ++ [0x05, 0x01, 0x00] := by
  unfold negotiate
  rw [bind_ok (writeAll_run _ _ _)]
  match incoming, h with
  | [], _ => exact ⟨.io, ⟨[], _⟩, rfl, rfl⟩
  | [_], _ => exact ⟨.io, ⟨[], _⟩, rfl, rfl⟩
  | a :: b :: rest, h =>
    have hab : a ≠ 0x05 ∨ b ≠ 0x00 := by
      by_contra hcon
      simp only [not_or, not_not] at hcon
      exact h ⟨rest, by rw [hcon.1, hcon.2]; rfl⟩
    rw [bind_ok (readExact_of_le (by simp) _)]
    change ∃ e s, (if a ≠ 0x05 ∨ b ≠ 0x00 then _ else _ : Io RouteError Unit) _ = _ ∧ _
    rw [if_pos hab]
    exact ⟨_, _, rfl, rfl⟩

/-- The request is written when the proxy accepts the method. -/
theorem tunnel_written (host : Text) (port : UInt16) (incoming : Bytes) :
    (socks5ConnectTunnel host port ⟨incoming, []⟩).2.written = [0x05, 0x01, 0x00] ++
      if [0x05, 0x00] <+: incoming then connectRequest host port else [] := by
  by_cases h : [0x05, 0x00] <+: incoming
  · obtain ⟨stream, rfl⟩ := h
    rw [tunnel_run, silent_readReply, if_pos (List.prefix_append _ _)]
  · obtain ⟨e, s, hrun, hs⟩ := negotiate_refused h []
    unfold socks5ConnectTunnel
    rw [bind_error hrun, if_neg h, hs]
    rfl

theorem toBeBytes_port (port : UInt16) :
    (UInt8.ofNat (port.toNat / 256)).toNat * 256 + (UInt8.ofNat (port.toNat % 256)).toNat =
      port.toNat := by
  have hport : port.toNat < 65536 := port.toNat_lt
  rw [toNat_byte (by omega), toNat_byte (by omega)]
  omega

/-- A host is named by its request exactly when its length fits into one byte. -/
theorem decodeConnect_request (host : Text) (port : UInt16) :
    decodeConnect (connectRequest host port) = some (⟨0x03, encode host, port.toNat⟩, []) ↔
      (encode host).length ≤ 255 := by
  have hdecode : decodeConnect (connectRequest host port) =
      decodeAddress 0x03 (UInt8.ofNat (encode host).length).toNat
        (encode host ++ toBeBytes port) := rfl
  have hlen : (UInt8.ofNat (encode host).length).toNat = (encode host).length % 256 :=
    UInt8.toNat_ofNat'
  rw [hdecode, hlen]
  generalize encode host = bytes
  unfold decodeAddress
  constructor
  · intro h
    by_contra hlong
    split at h
    · have htake := congrArg List.length (ConnectMessage.mk.inj
        (Prod.mk.inj (Option.some.inj h)).1).2.1
      rw [List.length_take, List.length_append] at htake
      omega
    · cases h
  · intro hle
    rw [Nat.mod_eq_of_lt (by omega), List.drop_left, List.take_left]
    unfold toBeBytes
    dsimp only
    rw [toBeBytes_port]

/-- The tunnel is asked for by name exactly when the proxy refuses the method or the length of the
name fits into one byte. -/
theorem tunnel_namesTarget_iff (host : Text) (port : UInt16) (incoming : Bytes) :
    NamesTarget host port (socks5ConnectTunnel host port ⟨incoming, []⟩).2.written ↔
      ¬[0x05, 0x00] <+: incoming ∨ (encode host).length ≤ 255 := by
  rw [tunnel_written, ← decodeConnect_request host port, or_iff_not_imp_left, not_not]
  unfold NamesTarget
  by_cases h : [0x05, 0x00] <+: incoming
  · rw [if_pos h]
    constructor
    · rintro (hnone | hgreet | ⟨request, hreq, hdecode⟩) _
      · cases hnone
      · cases hgreet
      · rw [List.append_cancel_left hreq]
        exact hdecode
    · exact fun hdecode => Or.inr (Or.inr ⟨_, rfl, hdecode h⟩)
  · rw [if_neg h]
    exact iff_of_true (Or.inr (Or.inl rfl)) fun h' => absurd h' h

end Synora.Net
