import ShaderBridge.Proofs.Parse.Fields
import ShaderBridge.Proofs.Parse.SoundSource

namespace ShaderBridge

namespace Shader

variable {s : Shader}

/-- Nothing that a shader declares or constructs is of a family of types. -/
structure Concrete (s : Shader) : Prop where
  globals : ∀ v ∈ s.globals, (s.var v).type.isFamily = false
  locals : ∀ v initial, (s.var v).role = .localVar initial → (s.var v).type.isFamily = false
  fields : ∀ f ∈ s.ownedFields, (s.var f).type.isFamily = false
  params : ∀ f ∈ s.functions, ∀ p ∈ (s.func f).params, (s.var p).type.isFamily = false
  results : ∀ f ∈ s.functions, (s.func f).returnType.isFamily = false
  constructed : ∀ e type args, s.expr e = .construct type args → type.isFamily = false

theorem Resolved.concrete (h : s.Resolved)
    (hfields : ∀ f ∈ s.ownedFields, (s.var f).type.isFamily = false) : s.Concrete where
  globals := h.globals
  locals v initial hrole := by
    have hgeneric := (h.vars v).1
    rwa [Variable.isGeneric, hrole] at hgeneric
  fields := hfields
  params f _ := (h.funcs f).2
  results f _ := (h.funcs f).1
  constructed e type args hexpr := by
    have hgeneric := h.exprs e
    rwa [hexpr] at hgeneric

/-- Fields, of structures or of blocks, are all that can be of a family in an accepted shader. -/
theorem Accepted.concrete_iff (h : s.Accepted) :
    s.Concrete ↔ ∀ f ∈ s.ownedFields, (s.var f).type.isFamily = false :=
  ⟨Concrete.fields, h.resolved.concrete⟩

end Shader

/-- The tokens of `struct S { float x; }; genFType f(genFType x) [[builtin]];`. -/
def familyPrototype : List TokenKind :=
  [.keyword (.word .struct), .ident "S", .punct .leftBrace, .keyword (.type (.scalar .float)),
    .ident "x", .punct .semicolon, .punct .rightBrace, .punct .semicolon,
    .keyword (.type (.family .floats)), .ident "f", .punct .leftParen,
    .keyword (.type (.family .floats)), .ident "x", .punct .rightParen, .punct .leftBracket,
    .punct .leftBracket, .ident "builtin", .punct .rightBracket, .punct .rightBracket,
    .punct .semicolon, .endOfFile]

/-- The prototype stands for one function per instance of its family. -/
theorem Shader.exists_concrete :
    ∃ s : Shader, s.Accepted ∧ s.functions.toList.map (fun f => (s.func f).returnType) =
      Family.floats.instances.map .builtin ∧ s.Concrete := by
  obtain ⟨s, hs, hfacts⟩ := Parse.exists_accepted
    (f := fun s => (s.functions.toList.map fun f => (s.func f).returnType,
      s.ownedFields.all fun f => !(s.var f).type.isFamily))
    (show (Parse.plainShader? .fragment familyPrototype).map _ =
        some (Family.floats.instances.map .builtin, true) by
      decide +kernel)
  obtain ⟨hresults, hfields⟩ := Prod.mk.inj hfacts
  refine ⟨s, hs, hresults, (Accepted.concrete_iff hs).2 fun f hf => ?_⟩
  simpa using List.all_eq_true.1 hfields f hf

/-- The tokens of `struct S { genFType x; };`. -/
def familyField : List TokenKind :=
  [.keyword (.word .struct), .ident "S", .punct .leftBrace, .keyword (.type (.family .floats)),
    .ident "x", .punct .semicolon, .punct .rightBrace, .punct .semicolon, .endOfFile]

theorem Shader.exists_not_concrete : ∃ s : Shader, s.Accepted ∧ ¬ s.Concrete := by
  obtain ⟨s, hs, hfacts⟩ := Parse.exists_accepted
    (f := fun s => s.ownedFields.map fun f => (s.var f).type)
    (show (Parse.plainShader? .fragment familyField).map _ =
        some [.builtin (.family .floats)] by
      decide +kernel)
  refine ⟨s, hs, fun hconcrete => ?_⟩
  obtain ⟨f, hf, htype⟩ := List.mem_map.1
    (hfacts ▸ List.mem_singleton_self (TypeRef.builtin (.family .floats)))
  have hfield := hconcrete.fields f hf
  rw [htype] at hfield
  cases hfield

end ShaderBridge
