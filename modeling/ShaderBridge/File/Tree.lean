import ShaderBridge.File.Path

namespace ShaderBridge

inductive FileError where
  | notFound
  | notDirectory
  | isDirectory
  /-- Any other cause, in the words of the system. -/
  | other (message : String)
deriving DecidableEq, Repr

def FileError.message : FileError → String
  | notFound => "No such file or directory (os error 2)"
  | notDirectory => "Not a directory (os error 20)"
  | isDirectory => "Is a directory (os error 21)"
  | other message => message

structure FileTree where
  /-- The parts of the path of every file, with its text. -/
  files : List (List String × String) := []
deriving DecidableEq, Repr

/-- What a path leads to. -/
inductive Place where
  | directory
  | file (path : List String) (text : String)
  /-- Nothing yet, in a directory that exists. -/
  | vacant (path : List String)
deriving DecidableEq, Repr

namespace FileTree

def ofFiles (files : List (String × String)) : FileTree :=
  ⟨files.map fun (path, text) => (Path.parts path, text)⟩

def text? (t : FileTree) (path : List String) : Option String :=
  t.files.lookup path

def hasDirectory (t : FileTree) (path : List String) : Bool :=
  path.isEmpty || t.files.any fun file => path.isPrefixOf file.1 && path != file.1

/-- Follows the pieces of a path from a directory. Nothing is known of what lies above the tree. -/
def follow (t : FileTree) : List String → List String → Except FileError Place
  | _, [] => .ok .directory
  | here, piece :: rest =>
    if piece == "" || piece == "." then t.follow here rest
    else if piece == ".." then
      if here.isEmpty then .error .notFound else t.follow here.dropLast rest
    else
      let path := here ++ [piece]
      match t.text? path with
      | some text => if rest.isEmpty then .ok (.file path text) else .error .notDirectory
      | none =>
        if t.hasDirectory path then t.follow path rest
        else if rest.isEmpty then .ok (.vacant path)
        else .error .notFound

/-- What a path leads to from the root of the tree. -/
def find (t : FileTree) (path : String) : Except FileError Place :=
  if path.isEmpty || Path.isAbsolute path then .error .notFound
  else t.follow [] (Path.pieces path)

def isPresent (t : FileTree) (path : String) : Bool :=
  match t.find path with
  | .ok .directory | .ok (.file ..) => true
  | _ => false

def read (t : FileTree) (path : String) : Except FileError String := do
  match ← t.find path with
  | .file _ text => return text
  | .directory => throw .isDirectory
  | .vacant _ => throw .notFound

/-- Gives a file a text, whether it was there before or not. -/
def put (t : FileTree) (path : List String) (text : String) : FileTree :=
  ⟨t.files.filter (fun file => file.1 != path) ++ [(path, text)]⟩

/-- Writes a file. A path with a slash at its end can only be a directory. -/
def write (t : FileTree) (path text : String) : Except FileError FileTree := do
  let named := String.ofList (dropTailWhile (· == '/') path.toList)
  match ← t.find named with
  | .directory => throw .isDirectory
  | .file place _ | .vacant place =>
    if named == path then return t.put place text else throw .isDirectory

end FileTree

end ShaderBridge
