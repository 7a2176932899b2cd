import KernelMap.Json.Affine
import KernelMap.Json.Printer
import KernelMap.Json.Reader
import KernelMap.Program.Basic

/-!
# KernelMap.Json.Program

The JSON form of programs.
-/

namespace KernelMap

/-! ## References -/

def Use.toJson : Use → Json
  | .read => .str "Read"
  | .write => .str "Write"

def Use.ofJson? (j : Json) : Option Use := do
  match ← j.unitCase? with
  | "Read" => some .read
  | "Write" => some .write
  | _ => none

def Subscript.toJson : Subscript → Json
  | .single a => .tagged "Affine" a.toJson
  | .range lo hi => .tagged "Range" (.obj [("lower", lo.toJson), ("upper", hi.toJson)])

def Subscript.ofJson? (j : Json) : Option Subscript := do
  match ← j.case? with
  | ("Affine", some a) => return .single (← Affine.ofJson? a)
  | ("Range", some r) =>
    let r ← r.record? ["lower", "upper"]
    return .range (← r.required "lower" Affine.ofJson?) (← r.required "upper" Affine.ofJson?)
  | _ => none

def Reference.toJson (r : Reference) : Json :=
  .obj [("id", .nat r.id), ("array", .str r.array), ("kind", r.use.toJson),
    ("exact", .bool r.definite), ("index", .list Subscript.toJson r.subscripts)]

def Reference.ofJson? (j : Json) : Option Reference := do
  let r ← j.record? ["id", "array", "kind", "exact", "index"]
  return {
    id := ← r.required "id" Json.index?
    array := ← r.required "array" Json.string?
    use := ← r.required "kind" Use.ofJson?
    definite := ← r.required "exact" Json.bool?
    subscripts := ← r.required "index" (Json.list? Subscript.ofJson?) }

/-! ## Statements -/

def Statement.toJson (s : Statement) : Json :=
  .obj [("name", .str s.name), ("iterators", .list .str s.iterators),
    ("domain", .list Constraint.toJson s.domain), ("schedule", .list Affine.toJson s.schedule),
    ("accesses", .list Reference.toJson s.references)]

def Statement.ofJson? (j : Json) : Option Statement := do
  let r ← j.record? ["name", "iterators", "domain", "schedule", "accesses"]
  return {
    name := ← r.required "name" Json.string?
    iterators := ← r.required "iterators" (Json.list? Json.string?)
    domain := ← r.required "domain" (Json.list? Constraint.ofJson?)
    schedule := ← r.required "schedule" (Json.list? Affine.ofJson?)
    references := ← r.required "accesses" (Json.list? Reference.ofJson?) }

/-! ## Arrays -/

namespace Extent

def toJson (e : Extent) : Json :=
  .obj [("lower", .option Affine.toJson e.lower), ("upper", .option Affine.toJson e.upper)]

def ofJson? (j : Json) : Option Extent := do
  let r ← j.record? ["lower", "upper"]
  return { lower := ← r.optional "lower" Affine.ofJson?,
           upper := ← r.optional "upper" Affine.ofJson? }

/-- The extents of all dimensions of an array. -/
def listToJson (es : List Extent) : Json := .obj [("dims", .list toJson es)]

def listOfJson? (j : Json) : Option (List Extent) := do
  let r ← j.record? ["dims"]
  r.required "dims" (Json.list? ofJson?)

end Extent

def ArrayDecl.toJson (a : ArrayDecl) : Json :=
  .obj [("name", .str a.name), ("element_type", .str a.elementType),
    ("element_size", .nat a.elementSize), ("n_index", .nat a.nIndex),
    ("extent", .option Extent.listToJson a.extent), ("scalar", .bool a.scalar),
    ("has_compound_element", .bool a.compound), ("local", .bool a.internal),
    ("read_only", .bool a.readOnly),
    ("force_private", .bool a.forcePrivate)]

def ArrayDecl.ofJson? (j : Json) : Option ArrayDecl := do
  let r ← j.record? ["name", "element_type", "element_size", "n_index", "extent", "scalar",
    "has_compound_element", "local", "read_only", "force_private"]
  return {
    name := ← r.required "name" Json.string?
    elementType := ← r.required "element_type" Json.string?
    elementSize := ← r.required "element_size" Json.index?
    nIndex := ← r.required "n_index" Json.index?
    extent := ← r.withDefault "extent" none (Json.option? Extent.listOfJson?)
    scalar := ← r.withDefault "scalar" false Json.bool?
    compound := ← r.withDefault "has_compound_element" false Json.bool?
    internal := ← r.withDefault "local" false Json.bool?
    readOnly := ← r.withDefault "read_only" false Json.bool?
    forcePrivate := ← r.withDefault "force_private" false Json.bool? }

/-! ## Regions and programs -/

def Region.toJson (r : Region) : Json :=
  .obj [("statements", .list .nat r.statements), ("tile_first", .nat r.tileFirst),
    ("tile_len", .nat r.tileLen), ("coincident", .list .bool r.coincident)]

def Region.ofJson? (j : Json) : Option Region := do
  let r ← j.record? ["statements", "tile_first", "tile_len", "coincident"]
  return {
    statements := ← r.required "statements" (Json.list? Json.index?)
    tileFirst := ← r.required "tile_first" Json.index?
    tileLen := ← r.required "tile_len" Json.index?
    coincident := ← r.required "coincident" (Json.list? Json.bool?) }

namespace Program

def toJson (p : Program) : Json :=
  .obj [("params", .list .str p.params), ("context", .list Constraint.toJson p.context),
    ("arrays", .list ArrayDecl.toJson p.arrays),
    ("statements", .list Statement.toJson p.statements),
    ("regions", .list Region.toJson p.regions)]

def ofJson? (j : Json) : Option Program := do
  let r ← j.record? ["params", "context", "arrays", "statements", "regions"]
  return {
    params := ← r.required "params" (Json.list? Json.string?)
    context := ← r.withDefault "context" [] (Json.list? Constraint.ofJson?)
    arrays := ← r.required "arrays" (Json.list? ArrayDecl.ofJson?)
    statements := ← r.required "statements" (Json.list? Statement.ofJson?)
    regions := ← r.required "regions" (Json.list? Region.ofJson?) }

/-- The indented JSON text of a program. -/
def toText (p : Program) : String := p.toJson.pretty

/-- The program with the given JSON text. -/
def ofText (text : String) : Outcome MapError Program :=
  .orRaise .json ((Json.read? text).bind ofJson?)

end Program

end KernelMap
