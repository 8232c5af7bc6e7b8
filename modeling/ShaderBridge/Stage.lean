namespace ShaderBridge

inductive Stage where
  | vertex | tessControl | tessEvaluation | geometry | fragment | compute
  | rayGeneration | intersection | anyHit | closestHit | miss | callable
deriving DecidableEq, Repr, Inhabited

namespace Stage

def all : List Stage :=
  [vertex, tessControl, tessEvaluation, geometry, fragment, compute, rayGeneration, intersection,
    anyHit, closestHit, miss, callable]

def name : Stage → String
  | vertex => "vertex"
  | tessControl => "tess-control"
  | tessEvaluation => "tess-evaluation"
  | geometry => "geometry"
  | fragment => "fragment"
  | compute => "compute"
  | rayGeneration => "raygen"
  | intersection => "intersect"
  | anyHit => "anyhit"
  | closestHit => "closesthit"
  | miss => "miss"
  | callable => "callable"

def fileExtension : Stage → String
  | vertex => "vert"
  | tessControl => "tesc"
  | tessEvaluation => "tese"
  | geometry => "geom"
  | fragment => "frag"
  | compute => "comp"
  | rayGeneration => "rgen"
  | intersection => "rint"
  | anyHit => "rahit"
  | closestHit => "rchit"
  | miss => "rmiss"
  | callable => "rcall"

def isRayTracing : Stage → Bool
  | rayGeneration | intersection | anyHit | closestHit | miss | callable => true
  | _ => false

/-- The stage with this long or short name. -/
def ofName? (s : String) : Option Stage :=
  all.find? fun stage => stage.name == s || stage.fileExtension == s

/-- Lower case of the letters of ASCII; any other character stays. -/
def lowerAscii (s : String) : List Char :=
  s.toList.map Char.toLower

/-- The stage that a file extension implies, in either case. -/
def ofFileExtension? (s : String) : Option Stage :=
  all.find? fun stage => lowerAscii stage.fileExtension == lowerAscii s

def unknownMessage (s : String) : String :=
  "unknown shader stage '" ++ s ++ "'"

theorem ofName?_name (stage : Stage) : ofName? stage.name = some stage := by
  cases stage <;> decide

theorem ofName?_fileExtension (stage : Stage) : ofName? stage.fileExtension = some stage := by
  cases stage <;> decide

end Stage

end ShaderBridge
