/-!
Values of configuration texts. A table remembers how it came about, because that decides who may add
to it later: a table in braces is complete, one that a header names is named by no other header, and
one that was only mentioned on the way to another may still get a header.
-/

namespace ShaderBridge.Toml

inductive Origin where
  /-- Written in braces. -/
  | inline
  /-- Named by a header. -/
  | header
  /-- Mentioned by a header of something inside it. -/
  | implied
  /-- Mentioned by a key with dots. -/
  | dotted
deriving DecidableEq, Repr

inductive Value where
  | string (s : String)
  | integer (i : Int)
  | float
  | boolean (b : Bool)
  | datetime
  | array (items : List Value)
  | table (origin : Origin) (entries : List (String × Value))
  /-- The tables of all headers in double brackets with one name, the oldest first. -/
  | tables (items : List (List (String × Value)))
deriving Repr

instance : Inhabited Value := ⟨.float⟩

abbrev Entries := List (String × Value)

namespace Entries

def find? (entries : Entries) (key : String) : Option Value :=
  entries.lookup key

/-- Gives a key a value in the place of the one it has. -/
def put (entries : Entries) (key : String) (value : Value) : Entries :=
  entries.filter (fun entry => entry.1 != key) ++ [(key, value)]

def add? (entries : Entries) (key : String) (value : Value) : Option Entries :=
  match entries.find? key with
  | none => some (entries ++ [(key, value)])
  | some _ => none

end Entries

/-- Changes the table that a header's path leads to. Tables on the way that do not exist yet are
implied; among several of one name the path takes the latest. -/
def updateAt? (change : Entries → Option Entries) : List String → Entries → Option Entries
  | [], entries => change entries
  | key :: path, entries =>
    match entries.find? key with
    | none => do
      let inner ← updateAt? change path []
      return entries.put key (.table .implied inner)
    | some (.table .inline _) => none
    | some (.table origin inner) => do
      let inner ← updateAt? change path inner
      return entries.put key (.table origin inner)
    | some (.tables items) => do
      let inner ← updateAt? change path (← items.getLast?)
      return entries.put key (.tables (items.dropLast ++ [inner]))
    | some _ => none

/-- Adds a value under a key with dots, of which `path` are all but the last part. The table that
the last part goes into was made by such keys, or is the table itself. -/
def addDotted? (key : String) (value : Value) (origin : Origin) : List String → Entries →
    Option Entries
  | [], entries => if origin = .dotted then entries.add? key value else none
  | part :: path, entries =>
    match entries.find? part with
    | none => do
      let inner ← addDotted? key value .dotted path []
      return entries.put part (.table .dotted inner)
    | some (.table .dotted inner) => do
      let inner ← addDotted? key value .dotted path inner
      return entries.put part (.table .dotted inner)
    | some (.table .implied inner) => do
      let inner ← addDotted? key value .implied path inner
      return entries.put part (.table .implied inner)
    | some (.tables items) => do
      let inner ← addDotted? key value .header path (← items.getLast?)
      return entries.put part (.tables (items.dropLast ++ [inner]))
    | some _ => none

/-- Adds a value under a key in parts. -/
def addPair? (path : List String) (key : String) (value : Value) (entries : Entries) :
    Option Entries :=
  match path with
  | [] => entries.add? key value
  | part :: path => addDotted? key value .header (part :: path) entries

/-- Opens the table of a header under its last part. -/
def openTable? (key : String) (entries : Entries) : Option Entries :=
  match entries.find? key with
  | none => some (entries.put key (.table .header []))
  | some (.table .implied inner) => some (entries.put key (.table .header inner))
  | some _ => none

/-- Opens a further table of a header in double brackets under its last part. -/
def openElement? (key : String) (entries : Entries) : Option Entries :=
  match entries.find? key with
  | none => some (entries.put key (.tables [[]]))
  | some (.tables items) => some (entries.put key (.tables (items ++ [[]])))
  | some _ => none

end ShaderBridge.Toml
