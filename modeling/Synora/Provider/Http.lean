import Synora.Mirror.Verdict
import Synora.Net.Expose
import Synora.Provider.Output

namespace Synora.Provider
open Strings Utf8 Mirror
open Engine (SyncResult ProviderError)

/-! # The HTTP provider -/

structure HttpProvider where
  parser : String
  delete : Bool
  warnOnForbiddenFiles : Bool
  threads : Option ℕ
  exclude : List Text

/-- `SyncContext`, as far as the provider reads it. -/
structure HttpContext where
  upstream : Option Text
  storage : Path
  proxyEnv : List (Text × Text)

def HttpContext.proxy (ctx : HttpContext) : Option Text :=
  (ctx.proxyEnv.find? fun entry =>
    Net.eqIgnoreAsciiCase entry.1 "all_proxy".toList ||
      Net.eqIgnoreAsciiCase entry.1 "http_proxy".toList).map Prod.snd

/-- The network, the storage and the cancel token as a sync meets them. -/
structure HttpMachine where
  ext : Externals
  /-- `reqwest` builds a client, with the proxy. -/
  client : Option Text → Except FetchError Unit
  metadata : Path → Option Metadata
  root : Node
  planning : List Event
  world : World
  transfers : List TransferEvent

/-- `Fetcher::with_proxy` -/
def withProxy (m : HttpMachine) (proxy : Option Text) : Except FetchError Unit :=
  match proxy with
  | some url =>
    if "socks".toList.isPrefixOf (toAsciiLowercase url) then
      .error (.http ("SOCKS proxies are not supported by the HTTP provider; ".toList ++
        "the manager must dispatch the HTTP CONNECT expose (cf-warp)".toList))
    else m.client (some url)
  | none => m.client none

def defaultThreads : ℕ := 5

def HttpProvider.fetcher (p : HttpProvider) : Fetcher :=
  (⟨defaultThreads, p.warnOnForbiddenFiles, by decide⟩ : Fetcher).withThreads
    (p.threads.getD defaultThreads)

def HttpProvider.env (p : HttpProvider) (ctx : HttpContext) (m : HttpMachine)
    (parser : IndexParser) : Env where
  ext := m.ext
  parser := parser
  storage := ctx.storage
  excludes := withExcludes m.ext p.exclude
  threads := p.fetcher.threads
  delete := p.delete
  metadata := m.metadata
  root := m.root

/-- `fetcher.sync(..)`, from the look-up of the parser on. -/
def HttpProvider.fetch (p : HttpProvider) (ctx : HttpContext) (m : HttpMachine) (upstream : Text) :
    Option (List FsOp × Except FetchError FetchStats) :=
  match parserFor p.parser with
  | none => some ([], .error (.http ("unknown index parser \x60".toList ++ p.parser.toList ++
      "\x60".toList)))
  | some parser => p.fetcher.sync (p.env ctx m parser) upstream 16 m.planning m.world m.transfers

def transferSummary (stats : FetchStats) : String :=
  "downloaded " ++ toString stats.filesDownloaded ++ " files (" ++ toString stats.filesSkipped ++
    " skipped, " ++ toString stats.filesDeleted ++ " deleted, " ++ toString stats.filesSymlinked ++
    " symlinked)"

def transferMessage (stats : FetchStats) : String :=
  if stats.filesWarned > 0 then
    "completed with warnings: " ++ toString stats.filesWarned ++ " missing files; " ++
      transferSummary stats ++ "; paths: " ++
      String.ofList (", ".toList.intercalate stats.warningPaths) ++
      if stats.filesWarned.toNat > stats.warningPaths.length then "; additional paths in run log"
      else ""
  else transferSummary stats

/-- What the provider makes of the outcome; a mirror with missing files claims no size. -/
def httpResult : Except FetchError FetchStats → Except ProviderError SyncResult
  | .error .cancelled => .error .cancelled
  | .error e => .error (.other (String.ofList e.display))
  | .ok stats =>
    if stats.filesFailed > 0 then
      .error (.other ("http sync failed: " ++ toString stats.filesFailed ++
        " integrity/transfer error(s); see run log"))
    else .ok {
      exitCode := some 0
      sizeHint := if stats.filesWarned = 0 then stats.totalSizeHint.map UInt64.ofNat else none
      bytesTransferred := some stats.downloadedBytes
      message := some (transferMessage stats)
      status := if stats.filesWarned > 0 then some "success_with_warnings" else none }

/-- `HttpProvider::sync`: what it did in the storage, and its result; `none` unless the events are
those of a whole sync. -/
def httpSync (p : HttpProvider) (ctx : HttpContext) (m : HttpMachine) :
    Option (List FsOp × Except ProviderError SyncResult) :=
  match ctx.upstream with
  | none => some ([], .error (.config "http provider requires \x60upstream\x60"))
  | some upstream =>
    match withProxy m ctx.proxy with
    | .error e => some ([], .error (.other (String.ofList e.display)))
    | .ok () => (p.fetch ctx m upstream).map fun done => (done.1, httpResult done.2)

/-! ## A success is the plan -/

/-- Only a sync that counts no failure is a success; a warning is reported, and takes the size
away. -/
theorem httpResult_ok {outcome : Except FetchError FetchStats} {r : SyncResult}
    (h : httpResult outcome = .ok r) : ∃ stats, outcome = .ok stats ∧ stats.filesFailed = 0 ∧
      (∀ job, Believed job (some (.ok r))) ∧
      ((stats.filesWarned = 0 ∧ r.status = none ∧
          r.sizeHint = stats.totalSizeHint.map UInt64.ofNat) ∨
        (stats.filesWarned ≠ 0 ∧ r.status = some "success_with_warnings" ∧ r.sizeHint = none)) := by
  cases outcome with
  | error e => cases e <;> cases h
  | ok stats =>
    have hzero (n : UInt32) : ¬n > 0 ↔ n = 0 := by
      rw [gt_iff_lt, UInt32.lt_iff_toNat_lt, ← UInt32.toNat_inj]
      exact Nat.not_lt.trans Nat.le_zero
    change (if stats.filesFailed > 0 then _ else _) = _ at h
    split at h
    · cases h
    rename_i hfailed
    cases h
    by_cases hwarned : stats.filesWarned = 0
    · have hnot := (hzero _).mpr hwarned
      rw [if_pos hwarned, if_neg hnot]
      exact ⟨stats, rfl, (hzero _).mp hfailed, fun job =>
        believed_of_success job (success_iff.mpr ⟨rfl, by simp⟩), .inl ⟨hwarned, rfl, rfl⟩⟩
    · have hsome : stats.filesWarned > 0 := by
        by_contra hnot
        exact hwarned ((hzero _).mp hnot)
      rw [if_neg hwarned, if_pos hsome]
      exact ⟨stats, rfl, (hzero _).mp hfailed, fun job =>
        believed_of_success job (success_iff.mpr ⟨rfl, by simp [Manager.isSuccessText]⟩),
        .inr ⟨hwarned, rfl, rfl⟩⟩

/-- What the listings name is in the storage: every listing was read to its end, and each file was
there already, was put in its place or is missing upstream, which is then reported. -/
structure Mirrored (p : HttpProvider) (m : HttpMachine) (env : Env) (c : Crawl)
    (plan : Plan) (ops : List FsOp) (r : SyncResult) : Prop where
  fetched : ∀ event ∈ m.planning, ∃ task body, event = .joined task (.fetched body)
  followed : ¬CutShort env (c.items env)
  files : ∀ x ∈ takenUp env (c.items env), x.2.kind = .file →
    localMatches env (destOf env x.1 x.2) x.2 = true ∨
      .rename (destOf env x.1 x.2) ∈ ops ∨
      r.status ≠ none ∧ Missing p.fetcher m.transfers (destOf env x.1 x.2)
  linked : Linked plan m.world ops
  unwarned : r.status = none →
    r.sizeHint = plan.totalSizeHint.map UInt64.ofNat ∧ Renewed plan m.world ops
  warned : r.status ≠ none → r.status = some "success_with_warnings" ∧ r.sizeHint = none ∧
    ∀ op ∈ ops, ¬op.Destructive

/-- A bucket with two files, one of which is gone when it is asked for. -/
def bucketPage : Bytes := encode
  ("<Contents><Key>a</Key><Size>7</Size></Contents>" ++
    "<Contents><Key>b</Key><Size>5</Size></Contents>").toList

def bucketJob : HttpProvider := ⟨"s3", true, false, none, []⟩

def bucketContext : HttpContext := ⟨some "http://m/".toList, Path.ofText "/srv".toList, []⟩

def bucketMachine : HttpMachine where
  ext := (mirrorEnv .s3 .nil).ext
  client _ := .ok ()
  metadata _ := none
  root := .dir true .nil
  planning := [.joined 0 (.fetched bucketPage)]
  world := calm
  transfers := [.joined 1 (.finished { arrived with response := .status 404 }),
    .joined 0 (.finished arrived)]

end Synora.Provider
