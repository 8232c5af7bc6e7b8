import ShaderBridge.Text.Chars

/-!
Macros and the table that holds them. The table keeps its entries in the order in which their names
were first defined; taking an entry out leaves the order of the others alone.
-/

namespace ShaderBridge

/-- What a macro name stands for. A macro without parameter list is replaced wherever its name
stands; one with a list, even an empty one, only where arguments follow. -/
structure MacroDefinition where
  params : Option (List String)
  body : List Char
deriving DecidableEq, Repr

/-- Why a definition is refused. -/
inductive DefinitionError where
  | malformed
  | invalidName (name : String)
  | protectedName (name : String)
  | conflict (name : String)
deriving DecidableEq, Repr

def DefinitionError.message : DefinitionError → String
  | malformed => "Invalid macro definition"
  | invalidName name => "Invalid macro definition '" ++ name ++ "'"
  | protectedName name => "Cannot redefine '" ++ name ++ "'"
  | conflict name => "Macro '" ++ name ++ "' has already been defined"

structure MacroTable where
  entries : List (String × MacroDefinition) := []
deriving DecidableEq, Repr, Inhabited

namespace MacroTable

def find? (t : MacroTable) (name : String) : Option MacroDefinition :=
  t.entries.lookup name

def isDefined (t : MacroTable) (name : String) : Bool :=
  (t.find? name).isSome

def isEmpty (t : MacroTable) : Bool :=
  t.entries.isEmpty

def names (t : MacroTable) : List String :=
  t.entries.map Prod.fst

def erase (t : MacroTable) (name : String) : MacroTable :=
  ⟨t.entries.filter fun entry => entry.1 != name⟩

/-- Names that the language gives a meaning of its own. -/
def isProtected (name : String) : Bool :=
  name == "defined" || name == "__LINE__"

/-- Adds a definition. A name that is taken may only be given the same definition again. -/
def insert (t : MacroTable) (name : String) (definition : MacroDefinition) :
    Except DefinitionError MacroTable :=
  if isProtected name then .error (.protectedName name)
  else
    match t.find? name with
    | none => .ok ⟨t.entries ++ [(name, definition)]⟩
    | some existing => if existing = definition then .ok t else .error (.conflict name)

/-- Defines a name without parameters. -/
def define (t : MacroTable) (name : String) (body : List Char) :
    Except DefinitionError MacroTable :=
  if isWord name.toList then t.insert name ⟨none, body⟩ else .error (.invalidName name)

/-- Defines from `NAME=BODY`, or from a bare name, which then stands for `1`. -/
def defineText (t : MacroTable) (text : List Char) : Except DefinitionError MacroTable :=
  let (name, body) := (cutAt? ['='] text).getD (text, ['1'])
  t.define (String.ofList (trim name)) (trim body)

theorem mem_names_of_find? {t : MacroTable} {name : String} {d : MacroDefinition}
    (h : t.find? name = some d) : name ∈ t.names := by
  obtain ⟨before, after, he, _⟩ := List.lookup_eq_some_iff.mp h
  simp [names, he]

theorem find?_erase_self (t : MacroTable) (name : String) : (t.erase name).find? name = none := by
  simp only [find?, erase, List.lookup_eq_none_iff]
  intro p hp
  have h : (p.1 != name) = true := (List.mem_filter.mp hp).2
  simpa using fun e => (bne_iff_ne.mp h) e.symm

end MacroTable

end ShaderBridge
