import ShaderBridge.Text.Chars

namespace ShaderBridge.Path

def pieces (path : String) : List String :=
  (splitAtChar '/' path.toList).map String.ofList

/-- The pieces of a path that say something. -/
def parts (path : String) : List String :=
  (pieces path).filter fun piece => piece != "" && piece != "."

def isAbsolute (path : String) : Bool :=
  path.toList.head? == some '/'

/-- A path as it is seen from a directory. -/
def join (directory path : String) : String :=
  if isAbsolute path || directory.isEmpty then path
  else if directory.toList.getLast? == some '/' then directory ++ path
  else directory ++ "/" ++ path

def fileName? (path : String) : Option String := do
  let last ← (parts path).getLast?
  if last == ".." then none else some last

/-- What follows the last dot of the name of a file, unless the name begins with that dot. -/
def extension? (path : String) : Option String := do
  let name ← fileName? path
  match name.toList.reverse.span (· != '.') with
  | (_, []) | (_, [_]) => none
  | (extension, _ :: _) => some (String.ofList extension.reverse)

/-- The directory that holds what a path leads to. It is the current one where the path has no
parts. -/
def directory (path : String) : String :=
  let parents := "/".intercalate (parts path).dropLast
  if (parts path).isEmpty then "."
  else if isAbsolute path then "/" ++ parents
  else if (pieces path).head? == some "." then join "." parents
  else parents

end ShaderBridge.Path
