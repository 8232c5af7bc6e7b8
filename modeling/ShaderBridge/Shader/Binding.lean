import ShaderBridge.Shader.Typing

namespace ShaderBridge

namespace Shader

def sameParams (s : Shader) (a b : FuncId) : Bool :=
  s.paramTypes a == s.paramTypes b

/-- The first prototype with the name and the parameters of a function. -/
def prototypeOf? (s : Shader) (id : FuncId) : Option FuncId :=
  (s.overloads (s.func id).name).find? fun p => (s.func p).isPrototype && s.sameParams id p

/-- Connects every definition with the prototype that announced it. -/
def linkPrototypes (s : Shader) : Shader :=
  s.functions.foldl (fun linked id =>
    if (s.func id).isPrototype then linked
    else
      match s.prototypeOf? id with
      | some p => linked.modifyFunc id fun f => { f with prototype := some p }
      | none => linked) s

/-- The overloads whose parameters accept arguments of the given types. -/
def candidates (s : Shader) (overloads : List FuncId) (args : List TypeRef)
    (accepts : TypeRef → TypeRef → Bool) : List FuncId :=
  overloads.filter fun f =>
    let params := s.paramTypes f
    params.length == args.length && (args.zip params).all fun (arg, param) => accepts arg param

/-- The first definition among functions, or else the first of them. -/
def preferred? (s : Shader) (functions : List FuncId) : Option FuncId :=
  (functions.find? fun f => !(s.func f).isPrototype).or functions.head?

/-- The overload that a call reaches. A name with one function reaches that function, whatever the
arguments are; otherwise arguments of just the right types go before arguments that convert. -/
def selectOverload? (s : Shader) (name : String) (args : List ExprId) : Option FuncId :=
  match s.overloads name with
  | [only] => some only
  | overloads => do
    let types ← args.mapM s.baseTypeOf?
    (s.preferred? (s.candidates overloads types (· == ·))).or
      (s.preferred? (s.candidates overloads types TypeRef.isCompatible))

def bindCall (s : Shader) (id : ExprId) : Shader :=
  match s.expr id with
  | .call name args _ =>
    match s.selectOverload? name args with
    | some f => s.setExpr id (.call name args (some f))
    | none => s
  | _ => s

def bindCalls (s : Shader) (calls : List ExprId) : Shader :=
  calls.foldl bindCall s

end Shader

end ShaderBridge
