import ShaderBridge.Proofs.Lowering.Origins
import ShaderBridge.Proofs.Parse.Calls

namespace ShaderBridge

open Hlsl

namespace Shader

variable {s : Shader}

/-- Calls are bound to functions of their names. -/
def BoundByName (s : Shader) : Prop :=
  ∀ e name args f, s.expr e = .call name args (some f) → f ∈ s.overloads name

theorem SameRest.overloads {s' : Shader} (h : s.SameRest s') (name : String) :
    s'.overloads name = s.overloads name := by
  obtain ⟨exprs, rfl⟩ := h
  rfl

theorem BoundByName.bindCall (h : s.BoundByName) (call : ExprId) :
    (s.bindCall call).BoundByName := by
  intro e name args f hexpr
  rw [(sameRest_bindCall s call).overloads]
  by_cases he : e = call
  · subst he
    unfold Shader.bindCall at hexpr
    split at hexpr
    · next name' args' target' hcall =>
        split at hexpr
        · next g hselect =>
            rw [expr_setExpr _ _ _ _ (index_lt_of_expr hcall Expr.noConfusion), if_pos rfl] at hexpr
            cases hexpr
            exact mem_overloads_of_selectOverload? hselect
        · exact h e name args f hexpr
    · exact h e name args f hexpr
  · rw [expr_bindCall_of_ne he] at hexpr
    exact h e name args f hexpr

theorem BoundByName.bindCalls (h : s.BoundByName) (calls : List ExprId) :
    (s.bindCalls calls).BoundByName := by
  induction calls generalizing s with
  | nil => exact h
  | cons call rest ih => exact ih (h.bindCall call)

theorem Accepted.boundByName (h : s.Accepted) : s.BoundByName := by
  obtain ⟨s₀, calls, hrecorded, -, rfl⟩ := h.exists_recorded
  refine BoundByName.bindCalls (fun e name args f hexpr => ?_) _
  cases hrecorded.unbound e name args _ hexpr

theorem Accepted.mem_functions (h : s.Accepted) {e : ExprId} {name : String} {args : List ExprId}
    {f : FuncId} (hexpr : s.expr e = .call name args (some f)) :
    f ∈ s.functions.toList ∧ (s.func f).name = name := by
  have hf := h.boundByName e name args f hexpr
  rw [h.consistent.linked.indexed.functions] at hf
  simpa [functionsNamed] using hf

end Shader

namespace Intrinsic

theorem targetName?_ne {name target : String} (h : targetName? name = some target) :
    target ≠ name := by
  have hrenamed : ∀ entry ∈ renamed, entry.2 ≠ entry.1 := by decide
  obtain ⟨before, after, hsplit, -⟩ := List.lookup_eq_some_iff.1 h
  exact hrenamed (name, target) (by rw [hsplit]; simp)

end Intrinsic

namespace Hlsl

variable {s : Shader} {buffers : List ByteBuffer}

theorem functionName_eq_iff {name : String} :
    functionName name = name ↔ Intrinsic.targetName? name = none := by
  unfold functionName
  cases htarget : Intrinsic.targetName? name with
  | none => simp
  | some target => simpa using Intrinsic.targetName?_ne htarget

theorem always_hoistCall_function (e : ExprId) (name : String) (args : List ExprId) :
    Always (s.hoistCall buffers e name args) fun t => ∃ temp type function xs target,
      t = .atomic temp type function xs ∧ (function = Shader.atomicFunction name target ∨
        ∃ resource : String, function = resource ++ "." ++ Shader.atomicFunction name target) := by
  refine always_imp (always_carriedAs (W := fun _ _ => True) (fun _ _ => trivial) e name args)
    fun t ht => ?_
  cases ht with
  | named => exact ⟨_, _, _, _, _, rfl, .inl rfl⟩
  | addressed => exact ⟨_, _, _, _, _, rfl, .inr ⟨_, rfl⟩⟩

theorem atomicFunction_ne {name : String} (h : Intrinsic.isAtomic name = true) (target : TypeRef)
    (resource : String) :
    Shader.atomicFunction name target ≠ name ∧
      resource ++ "." ++ Shader.atomicFunction name target ≠ name := by
  have hdot : '.' ∉ name.toList ∧ name ≠ "InterlockedCompareExchange64" ∧
      functionName name ≠ name := by
    simp only [Intrinsic.isAtomic, Intrinsic.atomics, List.contains_iff_mem, List.mem_cons,
      List.not_mem_nil, or_false] at h
    rcases h with rfl | rfl | rfl | rfl | rfl | rfl | rfl | rfl <;> decide
  refine ⟨?_, fun heq => hdot.1 ?_⟩
  · unfold Shader.atomicFunction
    dsimp only
    split
    · exact hdot.2.1.symm
    · exact hdot.2.2
  · rw [← heq]
    simp

/-- A call is written with the name that it has in the source if the target language has no other
name for it. -/
theorem call_name_eq_iff {e : ExprId} {name function : String} {args : List ExprId}
    {target : Option FuncId} {xs : List Expr} (hexpr : s.expr e = .call name args target)
    (h : s.Makes buffers e (.call function xs)) :
    function = name ↔ Intrinsic.targetName? name = none := by
  cases h with
  | construct xs h => rw [h] at hexpr; cases hexpr
  | product xs h => rw [h] at hexpr; cases hexpr
  | call depth state h =>
      rw [h] at hexpr
      cases hexpr
      exact functionName_eq_iff
  | carried state h hatomic hcarried =>
      rw [h] at hexpr
      cases hexpr
      obtain ⟨target, htarget⟩ := Intrinsic.exists_targetName?_of_isAtomic hatomic
      obtain ⟨_, _, _, _, t, hshape, hfunction⟩ := always_hoistCall_function e name args state
      rw [hcarried] at hshape
      cases hshape
      refine iff_of_false ?_ (by simp [htarget])
      rcases hfunction with rfl | ⟨resource, rfl⟩
      · exact (atomicFunction_ne hatomic t "").1
      · exact (atomicFunction_ne hatomic t resource).2

/-- The function that a mention is the call of. -/
def Mention.function? : Mention → Option String
  | .call function _ => some function
  | _ => none

/-- The calls that do not come from an expression. -/
def givenCalls : List String :=
  Shader.waveInputs.map Prod.snd ++
    [RayJump.ignoreIntersection, RayJump.terminateRay].map RayJump.hlslName

theorem mem_givenCalls {subject : Subject} {function : String} {xs : List Expr}
    (h : s.WrittenFrom subject (.given (.call function xs))) : function ∈ givenCalls := by
  have hgiven : ∀ f ∈ givenMentions.filterMap Mention.function?, f ∈ givenCalls := by
    decide +kernel
  exact hgiven function (List.mem_filterMap.2 ⟨_, mem_givenMentions h, rfl⟩)

end Hlsl

namespace Shader

variable {s : Shader}

theorem function_mem_subjects {f : FuncId} (hf : f ∈ s.functions.toList)
    (huser : (s.func f).builtin = false) (options : Options) :
    .function f ∈ s.subjects options := by
  refine List.mem_append_right _ (List.mem_flatMap.2 ⟨f, hf, ?_⟩)
  rw [functionSubjects, huser]
  exact List.mem_singleton_self _

/-- Whatever a program calls is called for a call of the source, an operator or a constructor, or by
itself. A call that is bound to a function of the shader has the name that the declarations of the
function have if and only if this is no name of an intrinsic that has another one in the target
language. -/
theorem Accepted.call_name_iff (h : s.Accepted) (options : Options) :
    (∀ d ∈ s.toProgram options, ∀ function xs, .call function xs ∈ d.mentions →
      function ∈ givenCalls ∨
        ∃ earlier subject root level e, s.DeclaredAs options earlier subject d ∧
          s.WrittenFrom subject (.expr root) ∧ s.Holds level root e ∧
          s.Makes (earlier.filterMap Subject.buffer?) e (.call function xs)) ∧
      ∀ e name args f, s.expr e = .call name args (some f) → (s.func f).builtin = false →
        .function f ∈ s.subjects options ∧
          ∀ buffers function xs, s.Makes buffers e (.call function xs) →
            ∀ earlier d, s.DeclaredAs options earlier (.function f) d →
              (d.head = .function function ↔ Intrinsic.targetName? name = none) := by
  refine ⟨fun d hd function xs hm => ?_, fun e name args f hexpr huser => ⟨?_, ?_⟩⟩
  · obtain ⟨earlier, subject, hdeclared⟩ := exists_declaredAs_of_mem hd
    obtain ⟨o, hfrom, hyields⟩ := hdeclared.belongs.mentions _ hm
    cases hyields with
    | expr hholds hmakes => exact .inr ⟨_, _, _, _, _, hdeclared, hfrom, hholds, hmakes⟩
    | given => exact .inl (mem_givenCalls hfrom)
  · exact function_mem_subjects (h.mem_functions hexpr).1 huser options
  · intro buffers function xs hmakes earlier d hdeclared
    obtain ⟨-, hname⟩ := h.mem_functions hexpr
    rw [hdeclared.belongs.head, headOf, hname, Head.function.injEq, eq_comm]
    exact call_name_eq_iff hexpr hmakes

end Shader

/-- The outer call of `g(g(1))` is written with the name of the prototype that it is bound to. -/
theorem Shader.exists_call_named :
    ∃ s : Shader, s.Accepted ∧ s.expr ⟨18⟩ = .call "g" [⟨17⟩] (some ⟨1⟩) ∧
      .function ⟨1⟩ ∈ s.subjects {} ∧
      ∀ buffers function xs, s.Makes buffers ⟨18⟩ (.call function xs) →
        ∀ earlier d, s.DeclaredAs {} earlier (.function ⟨1⟩) d → d.head = .function function := by
  obtain ⟨s, hs, hfacts⟩ := Parse.exists_accepted
    (f := fun s => (s.expr ⟨18⟩, (s.func ⟨1⟩).builtin))
    (show (Parse.plainShader? .fragment nestedCalls).map _ =
        some (.call "g" [⟨17⟩] (some ⟨1⟩), false) by
      decide +kernel)
  obtain ⟨hcall, huser⟩ := Prod.mk.inj hfacts
  obtain ⟨hdeclared, hname⟩ := (Accepted.call_name_iff hs {}).2 _ _ _ _ hcall huser
  refine ⟨s, hs, hcall, hdeclared, fun buffers function xs hmakes earlier d hd => ?_⟩
  exact (hname buffers function xs hmakes earlier d hd).2 (by decide)

/-- The tokens of `float mix(float a); float g() { return mix(1); }`. -/
def intrinsicName : List TokenKind :=
  [.keyword (.type (.scalar .float)), .ident "mix", .punct .leftParen,
    .keyword (.type (.scalar .float)), .ident "a", .punct .rightParen, .punct .semicolon,
    .keyword (.type (.scalar .float)), .ident "g", .punct .leftParen, .punct .rightParen,
    .punct .leftBrace, .keyword (.word .returnValue), .ident "mix", .punct .leftParen,
    .number (.integer .int 1), .punct .rightParen, .punct .semicolon, .punct .rightBrace,
    .endOfFile]

/-- The function of the shader is not called, the intrinsic of its name is. -/
theorem Shader.exists_call_misnamed :
    ∃ s : Shader, s.Accepted ∧
      (∃ e name args f, s.expr e = .call name args (some f) ∧ (s.func f).builtin = false ∧
        ∃ buffers function xs, s.Makes buffers e (.call function xs) ∧
          ∃ earlier d, s.DeclaredAs {} earlier (.function f) d ∧ d.head ≠ .function function) ∧
      s.toHlsl {} =
        "float mix(float a);\n" ++
        "float g() \x7b\n" ++
        "    return lerp(1);\n" ++
        "\x7d\n" := by
  obtain ⟨s, hs, hfacts⟩ := Parse.exists_accepted
    (f := fun s => (s.expr ⟨17⟩, (s.func ⟨0⟩).builtin, s.toHlsl {}))
    (show (Parse.plainShader? .fragment intrinsicName).map _ =
        some (.call "mix" [⟨16⟩] (some ⟨0⟩), false,
          "float mix(float a);\n" ++
          "float g() \x7b\n" ++
          "    return lerp(1);\n" ++
          "\x7d\n") by
      decide +kernel)
  obtain ⟨hcall, hfacts⟩ := Prod.mk.inj hfacts
  obtain ⟨huser, htext⟩ := Prod.mk.inj hfacts
  obtain ⟨hmem, hname⟩ := hs.mem_functions hcall
  obtain ⟨earlier, d, hd⟩ := exists_declaredAs_of_subject (function_mem_subjects hmem huser {})
  refine ⟨s, hs, ⟨⟨17⟩, "mix", [⟨16⟩], ⟨0⟩, hcall, huser, [], _, _, .call 0 {} hcall, earlier, d,
    hd, fun heq => ?_⟩, htext⟩
  rw [hd.belongs.head, headOf, hname, Head.function.injEq] at heq
  exact absurd heq (by decide)

end ShaderBridge
