import ShaderBridge.Macro.Table
import ShaderBridge.Text.Chars

namespace ShaderBridge

inductive Directed where
  | openIf (condition : List Char)
  | openDefined (wanted : Bool) (name : List Char)
  | elseIf (condition : List Char)
  | otherwise
  | close
  | define (rest : List Char)
  | undefine (name : List Char)
  | includeText (rest : List Char)
  /-- A line for a later reader, which passes through as it is. -/
  | foreign
deriving DecidableEq, Repr

namespace Directed

/-- The spelling of the two directives that ask for a definition. -/
def definedSpelling (wanted : Bool) : String :=
  if wanted then "ifdef" else "ifndef"

/-- Reads what follows the `#` of a directive line. -/
def ofText (cs : List Char) : Directed :=
  let cs := trimStart cs
  let name := leadingWord cs
  let rest := cs.drop name.length
  match String.ofList name with
  | "if" => openIf rest
  | "ifdef" => openDefined true (trim rest)
  | "ifndef" => openDefined false (trim rest)
  | "elif" => elseIf rest
  | "else" => otherwise
  | "endif" => close
  | "define" => define rest
  | "undef" => undefine (trim rest)
  | "include" => includeText rest
  | _ => foreign

end Directed

namespace MacroDefinition

/-- The parameters in a text between parentheses, and what follows the closing one. -/
def params? (cs : List Char) : Option (List String × List Char) := do
  let (inside, body) ← cutAt? [')'] cs
  let params := if (trim inside).isEmpty then [] else (splitAtChar ',' inside).map trim
  if params.all isWord then return (params.map String.ofList, body) else none

/-- Reads a name and what it stands for. Parameters follow the name without a blank. -/
def ofText? (cs : List Char) : Option (String × MacroDefinition) := do
  let cs := trimStart cs
  let name := leadingWord cs
  if name.isEmpty then none
  else
    match cs.drop name.length with
    | '(' :: rest =>
      let (params, body) ← params? rest
      return (String.ofList name, ⟨some params, trim body⟩)
    | body => return (String.ofList name, ⟨none, trim body⟩)

end MacroDefinition

/-- A text to be included: `"path"` is looked for near the including text first, `<path>` only where
the system keeps its texts. -/
structure IncludeTarget where
  path : String
  system : Bool
deriving DecidableEq, Repr

namespace IncludeTarget

/-- Reads what follows the name of an include directive. -/
def ofText? (cs : List Char) : Option IncludeTarget := do
  let (path, system) ←
    match trim cs with
    | '"' :: rest => (withoutFinal? '"' rest).map (·, false)
    | '<' :: rest => (withoutFinal? '>' rest).map (·, true)
    | _ => none
  if path.isEmpty || path.any (fun c => c == '"' || c == '<' || c == '>') then none
  else return ⟨String.ofList path, system⟩

end IncludeTarget

end ShaderBridge
