import KernelMap.Json.Record
import KernelMap.Space

/-!
# KernelMap.Json.Affine

The JSON form of affine forms, constraints and spaces.
-/

namespace KernelMap

namespace Affine

def toJson (a : Affine) : Json :=
  .obj [("coeffs", .list .int a.coeffs), ("constant", .int a.constant)]

def ofJson? (j : Json) : Option Affine := do
  let r ← j.record? ["coeffs", "constant"]
  return { coeffs := ← r.required "coeffs" (Json.list? Json.word?),
           constant := ← r.required "constant" Json.word? }

end Affine

namespace Constraint

def Kind.toJson : Kind → Json
  | .equality => .str "Equality"
  | .inequality => .str "Inequality"

def Kind.ofJson? (j : Json) : Option Kind := do
  match ← j.unitCase? with
  | "Equality" => some .equality
  | "Inequality" => some .inequality
  | _ => none

def toJson (c : Constraint) : Json :=
  .obj [("aff", c.expr.toJson), ("kind", c.kind.toJson)]

def ofJson? (j : Json) : Option Constraint := do
  let r ← j.record? ["aff", "kind"]
  return { expr := ← r.required "aff" Affine.ofJson?, kind := ← r.required "kind" Kind.ofJson? }

end Constraint

namespace Division

def toJson (d : Division) : Json :=
  .obj [("num", d.num.toJson), ("den", .int d.den)]

end Division

namespace Space

def toJson (s : Space) : Json :=
  .obj [("n_param", .nat s.nParam), ("n_iter", .nat s.nIter),
    ("divs", .list Division.toJson s.divs)]

end Space

end KernelMap
