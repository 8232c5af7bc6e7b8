import ShaderBridge.Compile
import ShaderBridge.Toml.Document

/-!
Configurations in configuration texts. Keys that are not known are passed over, keys that are
missing leave their default, and a value of the wrong kind makes the text no configuration. A group
of settings is a table, but may also be an array of its settings in order, of which the last may be
missing.
-/

namespace ShaderBridge

open Toml

namespace Config

def boolean? : Value → Option Bool
  | .boolean b => some b
  | _ => none

def natural? : Value → Option Nat
  | .integer i => if i < 0 then none else some i.toNat
  | _ => none

def string? : Value → Option String
  | .string s => some s
  | _ => none

def strings? : Value → Option (List String)
  | .array items => items.mapM string?
  | _ => none

/-- The settings of a group under their names. A date has no settings, and is no error. -/
def group? (names : List String) : Value → Option Entries
  | .table _ entries => some entries
  | .array items => some (names.zip items)
  | .tables items => some (names.zip (items.map (.table .header)))
  | .datetime => some []
  | _ => none

/-- A setting of a group, or its default. -/
def setting? {α : Type} (entries : Entries) (name : String) (read? : Value → Option α)
    (default : α) : Option α :=
  match entries.find? name with
  | none => some default
  | some value => read? value

def writer? (v : Value) : Option Hlsl.Options := do
  let entries ← group? ["write_hidden", "emit_helpers", "indent"] v
  let default : Hlsl.Options := {}
  return {
    writeHidden := ← setting? entries "write_hidden" boolean? default.writeHidden
    emitHelpers := ← setting? entries "emit_helpers" boolean? default.emitHelpers
    indent := ← setting? entries "indent" natural? default.indent }

/-- The macros and the include directories that a configuration asks for. -/
def preprocessor? (v : Value) : Option (List String × List String) := do
  let entries ← group? ["defines", "include_dirs"] v
  return (← setting? entries "defines" strings? [], ← setting? entries "include_dirs" strings? [])

def ofEntries? (entries : Entries) : Option Config := do
  let prune ← setting? entries "prune" boolean? true
  let (defines, includeDirs) ← setting? entries "preprocessor" preprocessor? ([], [])
  let writer ← setting? entries "writer" writer? {}
  return { prune, defines, includeDirs, writer }

def ofText? (text : String) : Option Config := do
  ofEntries? (← Toml.parse? text)

end Config

end ShaderBridge
