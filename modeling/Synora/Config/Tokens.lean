import Synora.Config.Load

namespace Synora.Config
open Strings

/-! # API tokens -/

/-- What bearer authentication relies on. -/
structure TokensSound (tokens : List ApiToken) : Prop where
  long : ∀ t ∈ tokens, 32 ≤ byteLen t.token.toList
  chosen : ∀ t ∈ tokens, ¬isPlaceholder t.token
  values : (tokens.map ApiToken.token).Nodup
  names : (tokens.map ApiToken.name).Nodup

/-- A further token keeps them sound when it is long enough, chosen, and new in value and name. -/
def Admissible (tokens : List ApiToken) (t : ApiToken) : Prop :=
  32 ≤ byteLen t.token.toList ∧ ¬isPlaceholder t.token ∧
    ∀ e ∈ tokens, e.token ≠ t.token ∧ e.name ≠ t.name

theorem tokensSound_concat {tokens : List ApiToken} (h : TokensSound tokens) (t : ApiToken) :
    TokensSound (tokens ++ [t]) ↔ Admissible tokens t := by
  constructor
  · intro hsound
    have hmem : t ∈ tokens ++ [t] := by simp
    refine ⟨hsound.long t hmem, hsound.chosen t hmem, fun e he => ⟨?_, ?_⟩⟩
    · have hvalues := hsound.values
      rw [List.map_append, List.nodup_append] at hvalues
      exact hvalues.2.2 _ (List.mem_map_of_mem he) _ (by simp)
    · have hnames := hsound.names
      rw [List.map_append, List.nodup_append] at hnames
      exact hnames.2.2 _ (List.mem_map_of_mem he) _ (by simp)
  · rintro ⟨hlong, hchosen, hnew⟩
    refine ⟨?_, ?_, ?_, ?_⟩
    · intro e he
      rcases List.mem_append.mp he with he | he
      · exact h.long e he
      · exact List.mem_singleton.mp he ▸ hlong
    · intro e he
      rcases List.mem_append.mp he with he | he
      · exact h.chosen e he
      · exact List.mem_singleton.mp he ▸ hchosen
    · rw [List.map_append, List.nodup_append]
      refine ⟨h.values, List.nodup_singleton _, ?_⟩
      rintro v hv w hw rfl
      obtain ⟨e, he, rfl⟩ := List.mem_map.mp hv
      exact (hnew e he).1 (List.mem_singleton.mp hw)
    · rw [List.map_append, List.nodup_append]
      refine ⟨h.names, List.nodup_singleton _, ?_⟩
      rintro v hv w hw rfl
      obtain ⟨e, he, rfl⟩ := List.mem_map.mp hv
      exact (hnew e he).2 (List.mem_singleton.mp hw)

theorem checkToken_ok {tokens : List ApiToken} {t : TokenDoc} {token : ApiToken}
    (h : checkToken tokens t = .ok token) :
    token = ⟨t.name, t.token, t.role, t.permissions⟩ ∧ Admissible tokens token := by
  unfold checkToken refuse at h
  dsimp only at h
  split_ifs at h with hshort hplace hvalue hname hrole
  cases h
  simp only [List.any_eq_true, decide_eq_true_eq, not_exists, not_and] at hvalue hname
  refine ⟨rfl, ?_, by simpa using hplace, fun e he => ⟨hvalue e he, hname e he⟩⟩
  simpa [tokenTooShort] using hshort

/-- The tokens that pass are those of the documents, and they are sound. -/
theorem resolveTokens_ok {tokens tokens' : List ApiToken} {docs : List TokenDoc}
    (hsound : TokensSound tokens) (h : resolveTokens tokens docs = .ok tokens') :
    tokens' = tokens ++ docs.map (fun t => ⟨t.name, t.token, t.role, t.permissions⟩) ∧
      TokensSound tokens' := by
  induction docs generalizing tokens with
  | nil =>
    cases h
    exact ⟨by simp, hsound⟩
  | cons t docs ih =>
    unfold resolveTokens at h
    obtain ⟨token, htoken, hrest⟩ := bind_eq_ok.mp h
    obtain ⟨rfl, hadm⟩ := checkToken_ok htoken
    obtain ⟨rfl, hsound'⟩ := ih ((tokensSound_concat hsound _).mpr hadm) hrest
    exact ⟨by simp, hsound'⟩

/-- The tokens of a loaded configuration are sound exactly when that of the environment, which no
check sees, is absent, or is long enough, no placeholder, and new in value and in its name. -/
theorem tokens_sound_iff {Addr Sections : Type} (crates : Crates Addr Sections)
    (documents : Documents) (env : String → Option String) (overrides : CliOverrides)
    (root : RootDoc) (jobs : List JobEntry) (hdocs : documents = .ok (root, jobs))
    (cfg : ResolvedConfig Addr Sections)
    (h : load crates documents env overrides = .ok cfg) :
    TokensSound cfg.api.tokens ↔ ∀ v, env "SYNORA_TOKEN" = some v →
      32 ≤ byteLen v.toList ∧ ¬isPlaceholder v ∧
        ∀ t ∈ root.api.tokens, t.token ≠ v ∧ t.name ≠ "env" := by
  obtain ⟨tokens, hres, htokens⟩ := load_ok hdocs h
  have hnil : TokensSound [] := ⟨nofun, nofun, List.nodup_nil, List.nodup_nil⟩
  obtain ⟨hconfigured, hsound⟩ := resolveTokens_ok hnil hres.tokens
  rw [htokens, envTokens]
  cases henv : env "SYNORA_TOKEN" with
  | none => simpa using hsound
  | some v =>
    have hadm := tokensSound_concat hsound ⟨"env", v, "admin", []⟩
    rw [Option.map_some, Option.toList_some, hadm, Admissible, hconfigured]
    simp

/-- Without a token in the environment the loaded tokens are sound. -/
theorem tokens_sound_iff_plain : ∃ cfg,
    load plainCrates (.ok (plainRoot [], [])) (fun _ => none) noOverrides = .ok cfg ∧
      TokensSound cfg.api.tokens := by
  refine ⟨_, rfl, (tokens_sound_iff plainCrates (.ok (plainRoot [], [])) (fun _ => none) noOverrides
    (plainRoot []) [] rfl _ rfl).mpr ?_⟩
  intro v h
  cases h

/-- The token of the environment may be the empty text. -/
theorem empty_token_loads : ∃ cfg,
    load plainCrates (.ok (plainRoot [], []))
        (fun name => if name = "SYNORA_TOKEN" then some "" else none) noOverrides = .ok cfg ∧
      cfg.api.tokens = [⟨"env", "", "admin", []⟩] ∧ ¬TokensSound cfg.api.tokens := by
  refine ⟨_, rfl, rfl, fun h => ?_⟩
  exact absurd (h.long ⟨"env", "", "admin", []⟩ (by decide)) (by decide)

end Synora.Config
