import ShaderBridge.Text.Span

/-!
Groups of lines that a condition governs. A group runs from its `#if` to its `#endif` and is split
into branches, of which at most one is taken.
-/

namespace ShaderBridge

structure Group where
  /-- The lines around the group are taken. -/
  parent : Bool
  /-- A branch of the group was taken, or is. -/
  taken : Bool
  seenElse : Bool
  /-- The lines of the present branch are taken. -/
  active : Bool
  span : Span
deriving DecidableEq, Repr

namespace Group

/-- A group whose first branch has the given condition. -/
def opened (parent condition : Bool) (span : Span) : Group :=
  { parent, taken := condition, seenElse := false, active := parent && condition, span }

/-- Whether the condition of a further branch matters. -/
def isUndecided (g : Group) : Bool :=
  g.parent && !g.taken

/-- The group in a branch whose condition does not matter. -/
def skipBranch (g : Group) : Group :=
  { g with active := false }

/-- The group in a branch with the given condition, where no branch was taken before. -/
def enterBranch (g : Group) (condition : Bool) : Group :=
  { g with active := condition, taken := condition }

def enterElse (g : Group) : Group :=
  { g with active := g.parent && !g.taken, taken := true, seenElse := true }

/-- Whether lines inside all open groups, innermost first, are taken. -/
def allActive : List Group → Bool
  | [] => true
  | g :: _ => g.active

end Group

end ShaderBridge
