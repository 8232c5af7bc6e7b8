import ShaderBridge.CommandLine.Plan

/-!
The files that a command may read. The plan of a command is made from files that have been read
before; which ones it may need is found out from the texts read so far, whose include lines are all
taken to be carried out.
-/

namespace ShaderBridge

/-- The includes that a text asks for, also those that it would skip. -/
def includeTargets (source : String) : List IncludeTarget :=
  match stripComments 0 source.toList with
  | .error _ => []
  | .ok text =>
    (sections (logicalLines text)).1.filterMap fun s =>
      match Directed.ofText s.directive with
      | .includeText rest => IncludeTarget.ofText? rest
      | _ => none

/-- Files that have been read, each with its text or with the reason why it has none. -/
structure Snapshot where
  files : List (String × Except FileError String) := []

namespace Snapshot

def read (s : Snapshot) (path : String) : Except FileError String :=
  (s.files.lookup path).getD (.error .notFound)

def isPresent (s : Snapshot) (path : String) : Bool :=
  match s.read path with
  | .error .notFound | .error .notDirectory => false
  | _ => true

def toFiles (s : Snapshot) : Files :=
  ⟨s.read, s.isPresent⟩

def texts (s : Snapshot) : List String :=
  s.files.filterMap fun file => file.2.toOption

/-- The files that a command may read next. -/
def wanted (s : Snapshot) (c : Command) : List String :=
  let config := c.adjust ((loadConfig s.toFiles c.configPath).toOption.getD {})
  let includes := s.texts.flatMap fun text =>
    (includeTargets text).flatMap (c.includePaths config)
  ((c.configPath :: c.input :: includes).filter fun path => (s.files.lookup path).isNone).eraseDups

end Snapshot

end ShaderBridge
