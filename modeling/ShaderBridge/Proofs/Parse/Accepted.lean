import ShaderBridge.Parse.Source

namespace ShaderBridge

/-- A shader is what the parser makes of some tokens in some stage. -/
def Shader.Accepted (s : Shader) : Prop :=
  ∃ prototypes stage tokens, Parse.shaderWith prototypes stage tokens = .ok s

namespace Parse

theorem exists_run_of_shaderWith {prototypes tokens : List Token} {stage : Stage} {s : Shader}
    (h : shaderWith prototypes stage tokens = .ok s) :
    ∃ st, (do prelude stage prototypes; source tokens : ParseM Unit).run { shader := { stage } } =
      .ok ((), st) ∧ s = st.shader.linkPrototypes.bindCalls st.calls.reverse := by
  unfold shaderWith at h
  dsimp only at h
  cases hrun : (do prelude stage prototypes; source tokens : ParseM Unit).run
      { shader := { stage } } with
  | error e =>
      rw [hrun] at h
      cases h
  | ok r =>
      rw [hrun] at h
      cases h
      exact ⟨r.2, rfl, rfl⟩

theorem exists_tokens_of_parse {text : String} {stage : Stage} {s : Shader}
    (h : parse text stage = .ok s) :
    ∃ tokens, tokenize text = .ok tokens ∧ shaderOf stage tokens = .ok s := by
  unfold parse at h
  cases htokens : tokenize text with
  | error e =>
      rw [htokens] at h
      cases h
  | ok tokens =>
      rw [htokens] at h
      change (shaderOf stage tokens).mapError _ = .ok s at h
      cases hshader : shaderOf stage tokens with
      | error e =>
          rw [hshader] at h
          cases h
      | ok made =>
          rw [hshader] at h
          cases h
          exact ⟨tokens, rfl, hshader⟩

theorem accepted_of_parse {text : String} {stage : Stage} {s : Shader}
    (h : parse text stage = .ok s) : s.Accepted := by
  obtain ⟨tokens, _, hshader⟩ := exists_tokens_of_parse h
  exact ⟨prototypeTokens, stage, tokens, hshader⟩

/-- Tokens whose places do not matter. -/
def unplaced (kinds : List TokenKind) : List Token :=
  kinds.map fun kind => ⟨kind, {}⟩

/-- The shader of a text without any functions of the language. -/
def plainShader? (stage : Stage) (kinds : List TokenKind) : Option Shader :=
  (shaderWith [] stage (unplaced kinds)).toOption

theorem accepted_of_plainShader? {stage : Stage} {kinds : List TokenKind} {s : Shader}
    (h : plainShader? stage kinds = some s) : s.Accepted := by
  refine ⟨[], stage, unplaced kinds, ?_⟩
  unfold plainShader? at h
  cases hshader : shaderWith [] stage (unplaced kinds) with
  | error e =>
      rw [hshader] at h
      cases h
  | ok made =>
      rw [hshader] at h
      cases h
      rfl

theorem exists_accepted {α : Type} {stage : Stage} {kinds : List TokenKind} {f : Shader → α} {a : α}
    (h : (plainShader? stage kinds).map f = some a) : ∃ s : Shader, s.Accepted ∧ f s = a := by
  obtain ⟨s, hs, hf⟩ := Option.map_eq_some_iff.1 h
  exact ⟨s, accepted_of_plainShader? hs, hf⟩

end Parse

end ShaderBridge
