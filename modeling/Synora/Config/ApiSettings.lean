import Synora.Config.Layers
import Synora.Config.Load

namespace Synora.Config
open Strings Mirror Storage

/-! # The connection settings of a client -/

/-- A document with an `[api]` section only. -/
def apiRoot (api : ApiDoc) : RootDoc := { RootDoc.default with api }

/-- `ConfigLoader::load_api`, with what `load_documents` comes back with for it. -/
def loadApi {Addr Sections : Type} (crates : Crates Addr Sections) (documents : Documents)
    (env : String → Option String) : Except Failure (ApiConfig Addr) := do
  let (root, _) ← lift documents
  let cfg ← resolve crates (apiRoot root.api) []
  let cfg ← overriding (env "SYNORA_API_LISTEN")
    (overrideListen crates "<env>" "invalid SYNORA_API_LISTEN") cfg
  return cfg.api

/-! ## A load that drops the jobs -/

/-- The state of such a load, beside that of a whole one. -/
def LoadState.dropJobs (s : LoadState) : LoadState := { s with jobs := [], connectionOnly := true }

section
variable {host : Host} {path : Path} {depth fuel : ℕ} {s s' t : LoadState} {patterns : List Text}

/-- A loop whose calls can be followed can be followed. -/
theorem each_dropJobs {α : Type} {f g : α → LoadState → Option (Except ConfigError LoadState)}
    {as : List α} (hf : ∀ a ∈ as, ∀ s t, f a s = some (.ok t) →
      g a s.dropJobs = some (.ok t.dropJobs))
    (h : each f as s = some (.ok s')) : each g as s.dropJobs = some (.ok s'.dropJobs) := by
  induction as generalizing s with
  | nil =>
    obtain rfl : s = s' := by simpa [each] using h
    rfl
  | cons a as ih =>
    obtain ⟨t, ht, hrest⟩ := each_cons_ok.mp h
    exact each_cons_ok.mpr ⟨t.dropJobs, hf a List.mem_cons_self s t ht,
      ih (fun b hb => hf b (List.mem_cons_of_mem _ hb)) hrest⟩

theorem enter_dropJobs (h : enter host path depth s = .ok (t, patterns)) :
    enter host path depth s.dropJobs = .ok (t.dropJobs, patterns) := by
  obtain ⟨hchecks, cached, doc, jobs, rest, hread, hraw, hexpanded, hinclude, hjobs, rfl⟩ :=
    enter_eq_ok.mp h
  exact enter_eq_ok.mpr ⟨hchecks, cached, doc, [], rest, hread, hraw, hexpanded, hinclude,
    (takeJobs_doc hjobs).1, rfl⟩

/-- Dropping the jobs, the loader takes the same files and merges the same document. -/
theorem loadFile_dropJobs (h : loadFile host fuel path depth s = some (.ok s')) :
    loadFile host fuel path depth s.dropJobs = some (.ok s'.dropJobs) := by
  induction fuel generalizing path depth s s' with
  | zero => cases h
  | succ fuel ih =>
    obtain ⟨t, u, patterns, henter, hall, rfl⟩ := loadFile_ok h
    have hpatterns : includeAll host path (fun f s => loadFile host fuel f (depth + 1) s) patterns
        t.dropJobs = some (.ok u.dropJobs) := by
      refine each_dropJobs (fun pattern _ s t ht => ?_) hall
      unfold includePattern at ht ⊢
      cases hfiles : included host path pattern with
      | error e =>
        rw [hfiles] at ht
        cases ht
      | ok files =>
        rw [hfiles] at ht
        exact each_dropJobs (fun q _ s t hq => ih hq) ht
    rw [loadFile, enter_dropJobs henter]
    dsimp only
    rw [hpatterns]
    rfl

theorem loadDocuments_dropJobs {root : RootDoc} {jobs : List JobEntry}
    (h : loadDocuments host fuel path false = some (.ok (root, jobs))) :
    loadDocuments host fuel path true = some (.ok (root, [])) := by
  unfold loadDocuments at h ⊢
  cases hmain : host.canonicalize path with
  | none =>
    rw [hmain] at h
    cases h
  | some main =>
    rw [hmain] at h
    dsimp only at h ⊢
    cases hload : loadFile host fuel main 0 (.start false) with
    | none =>
      rw [hload] at h
      cases h
    | some r =>
      rw [hload] at h
      cases r with
      | error e => cases h
      | ok s =>
        have hdrop : loadFile host fuel main 0 (.start true) = some (.ok s.dropJobs) :=
          loadFile_dropJobs hload
        rw [hdrop]
        dsimp only [LoadState.dropJobs] at h ⊢
        cases hroot : host.root (s.merged.getD []) with
        | error e =>
          rw [hroot] at h
          cases h
        | ok root' =>
          rw [hroot] at h
          cases h
          rfl

end

/-! ## The settings -/

section
variable {Addr Sections : Type} {crates : Crates Addr Sections}
  {cfg cfg' : ResolvedConfig Addr Sections} {env : String → Option String}

theorem resolve_api {root : RootDoc} {jobs : List JobEntry}
    (hsections : ∀ api, ∃ sections, crates.sections (apiRoot api) = .ok sections)
    (h : resolve crates root jobs = .ok cfg) :
    ∃ cfg₀, resolve crates (apiRoot root.api) [] = .ok cfg₀ ∧
      cfg₀.api = cfg.api := by
  unfold resolve at h
  obtain ⟨db, -, h⟩ := bind_eq_ok.mp h
  obtain ⟨listen, hlisten, h⟩ := bind_eq_ok.mp h
  obtain ⟨_, htls, h⟩ := bind_eq_ok.mp h
  obtain ⟨tokens, htokens, h⟩ := bind_eq_ok.mp h
  obtain ⟨resolved, -, h⟩ := bind_eq_ok.mp h
  obtain ⟨sections, -, h⟩ := bind_eq_ok.mp h
  obtain ⟨minFreeBytes, -, h⟩ := bind_eq_ok.mp h
  cases h
  obtain ⟨sections₀, hsections⟩ := hsections root.api
  apply Exists.intro
  refine ⟨?_, ?_⟩
  · unfold resolve
    refine bind_eq_ok.mpr ⟨_, rfl, bind_eq_ok.mpr ⟨listen, hlisten, bind_eq_ok.mpr ⟨_, htls,
      bind_eq_ok.mpr ⟨tokens, htokens, bind_eq_ok.mpr ⟨[], rfl, bind_eq_ok.mpr ⟨sections₀, ?_,
        bind_eq_ok.mpr ⟨none, rfl, rfl⟩⟩⟩⟩⟩⟩⟩
    rw [hsections]
    rfl
  · rfl

theorem overriding_api {value : Option String}
    {set : String → ResolvedConfig Addr Sections → Except Failure (ResolvedConfig Addr Sections)}
    (hset : ∀ v cfg cfg', set v cfg = .ok cfg' → cfg'.api = cfg.api)
    (h : overriding value set cfg = .ok cfg') : cfg'.api = cfg.api := by
  cases value with
  | none =>
    cases h
    rfl
  | some v => exact hset v cfg cfg' h

theorem overrideMaxConcurrency_api (v : String) (cfg cfg' : ResolvedConfig Addr Sections)
    (h : overrideMaxConcurrency v cfg = .ok cfg') : cfg'.api = cfg.api := by
  unfold overrideMaxConcurrency at h
  split at h
  · cases h
    rfl
  · cases h

theorem overrideDbKind_api (v : String) (cfg cfg' : ResolvedConfig Addr Sections)
    (h : overrideDbKind v cfg = .ok cfg') : cfg'.api = cfg.api := by
  unfold overrideDbKind at h
  split at h
  · cases h
    rfl
  · cases h
    rfl
  · cases h

theorem overrideDbUrl_api (v : String) (cfg cfg' : ResolvedConfig Addr Sections)
    (h : overrideDbUrl v cfg = .ok cfg') : cfg'.api = cfg.api := by
  cases h
  rfl

theorem overrideDbPath_api (v : String) (cfg cfg' : ResolvedConfig Addr Sections)
    (h : overrideDbPath v cfg = .ok cfg') : cfg'.api = cfg.api := by
  cases h
  rfl

/-- An address that overrides the one in a configuration overrides that of any other. -/
theorem overrideListen_api {file : String} {message : String → String}
    {value : Option String} {cfg₀ : ResolvedConfig Addr Sections} (file' : String)
    (message' : String → String)
    (h : overriding value (fun v => overrideListen crates file (message v) v) cfg = .ok cfg')
    (hsame : cfg₀.api = cfg.api) :
    ∃ cfg₀', overriding value (fun v => overrideListen crates file' (message' v) v) cfg₀ =
        .ok cfg₀' ∧ cfg₀'.api = cfg'.api ∧ (value = none → cfg'.api = cfg.api) ∧
      cfg'.api = { cfg.api with listen := cfg'.api.listen } := by
  cases value with
  | none =>
    cases h
    exact ⟨cfg₀, rfl, hsame, fun _ => rfl, rfl⟩
  | some v =>
    dsimp only [overriding, overrideListen] at h ⊢
    cases hlisten : crates.socketAddr v with
    | none =>
      rw [hlisten] at h
      cases h
    | some listen =>
      rw [hlisten] at h
      cases h
      exact ⟨_, rfl, by rw [hsame], nofun, rfl⟩

theorem applyCliOverrides_api {overrides : CliOverrides}
    (h : applyCliOverrides crates overrides cfg = .ok cfg') :
    cfg'.api = { cfg.api with listen := cfg'.api.listen } ∧
      (overrides.apiListen = none → cfg'.api = cfg.api) := by
  unfold applyCliOverrides at h
  obtain ⟨cfg₁, h₁, h⟩ := bind_eq_ok.mp h
  obtain ⟨cfg₂, h₂, h⟩ := bind_eq_ok.mp h
  obtain ⟨cfg₃, h₃, h₄⟩ := bind_eq_ok.mp h
  have hsame : cfg₃.api = cfg.api := (overriding_api overrideDbUrl_api h₃).trans
    ((overriding_api overrideDbPath_api h₂).trans (overriding_api overrideDbKind_api h₁))
  obtain ⟨-, -, -, hnone, hlisten⟩ := overrideListen_api "" id h₄ rfl
  rw [hsame] at hnone hlisten
  exact ⟨hlisten, hnone⟩

theorem applyEnvOverrides_api (file : String) (message : String → String)
    {cfg₀ : ResolvedConfig Addr Sections} (h : applyEnvOverrides crates env cfg = .ok cfg')
    (hsame : cfg₀.api = cfg.api) :
    ∃ cfg₀', overriding (env "SYNORA_API_LISTEN")
        (fun v => overrideListen crates file (message v) v) cfg₀ = .ok cfg₀' ∧
      cfg'.api = { cfg₀'.api with tokens := cfg₀'.api.tokens ++ envTokens env } := by
  unfold applyEnvOverrides at h
  obtain ⟨cfg₁, h₁, h⟩ := bind_eq_ok.mp h
  obtain ⟨cfg₂, h₂, h⟩ := bind_eq_ok.mp h
  obtain ⟨cfg₃, h₃, h₄⟩ := bind_eq_ok.mp h
  have hfirst := overriding_api overrideMaxConcurrency_api h₁
  obtain ⟨cfg₀', hrun, hapi, -⟩ := overrideListen_api file message h₂
    (hsame.trans hfirst.symm)
  have hthird := overriding_api overrideDbUrl_api h₃
  refine ⟨cfg₀', hrun, ?_⟩
  rw [hapi, ← hthird]
  unfold overriding at h₄
  unfold envTokens
  cases htoken : env "SYNORA_TOKEN" with
  | none =>
    rw [htoken] at h₄
    cases h₄
    simp
  | some v =>
    rw [htoken] at h₄
    cases h₄
    rfl

end

/-- Where the daemon loads its configuration, a client reads the same connection settings from the
same files: all but the token of the environment and an address given on the command line. -/
theorem load_api_agrees {Addr Sections : Type} (crates : Crates Addr Sections)
    (hsections : ∀ api, ∃ sections, crates.sections (apiRoot api) = .ok sections) (host : Host)
    (fuel : ℕ) (path : Path) (documents : Documents) (env : String → Option String)
    (overrides : CliOverrides) (cfg : ResolvedConfig Addr Sections)
    (hdocuments : loadDocuments host fuel path false = some documents)
    (h : load crates documents env overrides = .ok cfg) :
    ∃ documents' api, loadDocuments host fuel path true = some documents' ∧
      loadApi crates documents' env = .ok api ∧
      cfg.api = { api with
        listen := cfg.api.listen, tokens := api.tokens ++ envTokens env } ∧
      (overrides.apiListen = none → cfg.api.listen = api.listen) := by
  unfold load at h
  obtain ⟨⟨root, jobs⟩, hlift, h⟩ := bind_eq_ok.mp h
  obtain ⟨cfg₁, hresolve, h⟩ := bind_eq_ok.mp h
  obtain ⟨cfg₂, henv, hcli⟩ := bind_eq_ok.mp h
  obtain rfl : documents = .ok (root, jobs) := by
    cases documents with
    | error e => cases hlift
    | ok found =>
      cases hlift
      rfl
  obtain ⟨cfg₀, hresolve₀, hsame⟩ := resolve_api hsections hresolve
  obtain ⟨cfg₀', hlisten, hapi⟩ := applyEnvOverrides_api "<env>"
    (fun _ => "invalid SYNORA_API_LISTEN") henv hsame
  obtain ⟨hfinal, hnone⟩ := applyCliOverrides_api hcli
  refine ⟨.ok (root, []), cfg₀'.api, loadDocuments_dropJobs hdocuments, ?_, ?_, fun ho => ?_⟩
  · exact bind_eq_ok.mpr ⟨(root, []), rfl, bind_eq_ok.mpr ⟨cfg₀, hresolve₀,
      bind_eq_ok.mpr ⟨cfg₀', hlisten, rfl⟩⟩⟩
  · rw [hfinal, hapi]
  · rw [hnone ho, hapi]

/-- The two files of before, which leave everything at its default. -/
def defaultFiles : Host := { twoFiles with root := fun _ => .ok (plainRoot []) }

def adminEnv (name : String) : Option String :=
  if name = "SYNORA_TOKEN" then some "0123456789abcdef0123456789abcdef" else none

theorem load_api_agrees_defaults : ∃ documents cfg,
    loadDocuments defaultFiles 34 mainToml false = some documents ∧
      load plainCrates documents adminEnv noOverrides = .ok cfg ∧
      ∃ documents' api, loadDocuments defaultFiles 34 mainToml true = some documents' ∧
        loadApi plainCrates documents' adminEnv = .ok api ∧
        cfg.api = { api with
          listen := cfg.api.listen, tokens := api.tokens ++ envTokens adminEnv } ∧
        (noOverrides.apiListen = none → cfg.api.listen = api.listen) :=
  ⟨_, _, rfl, rfl, load_api_agrees plainCrates (fun _ => ⟨(), rfl⟩) defaultFiles 34 mainToml _
    adminEnv noOverrides _ rfl rfl⟩

end Synora.Config
