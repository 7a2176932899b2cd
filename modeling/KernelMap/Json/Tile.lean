import KernelMap.Json.Affine
import KernelMap.Tile.Basic

/-!
# KernelMap.Json.Tile

The JSON form of bounds, tiles and tilings.
-/

namespace KernelMap

def LowerBound.toJson (l : LowerBound) : Json :=
  .obj [("aff", l.form.toJson), ("denom", .int l.denom)]

def LowerBound.ofJson? (j : Json) : Option LowerBound := do
  let r ← j.record? ["aff", "denom"]
  return { form := ← r.required "aff" Affine.ofJson?, denom := ← r.required "denom" Json.word? }

def Stride.toJson (s : Stride) : Json := .obj [("stride", .int s.step), ("shift", s.shift.toJson)]

def Stride.ofJson? (j : Json) : Option Stride := do
  let r ← j.record? ["stride", "shift"]
  return { step := ← r.required "stride" Json.word?, shift := ← r.required "shift" Affine.ofJson? }

def Bound.toJson (b : Bound) : Json :=
  .obj [("size", .int b.size), ("lower", b.lower.toJson),
    ("stride", .option Stride.toJson b.stride)]

def Bound.ofJson? (j : Json) : Option Bound := do
  let r ← j.record? ["size", "lower", "stride"]
  return {
    size := ← r.required "size" Json.word?
    lower := ← r.required "lower" LowerBound.ofJson?
    stride := ← r.optional "stride" Stride.ofJson? }

def Tile.toJson (t : Tile) : Json :=
  .obj [("bounds", .list Bound.toJson t.bounds), ("n_param", .nat t.nParam),
    ("n_outer", .nat t.nOuter)]

def Tile.ofJson? (j : Json) : Option Tile := do
  let r ← j.record? ["bounds", "n_param", "n_outer"]
  return {
    bounds := ← r.required "bounds" (Json.list? Bound.ofJson?)
    nParam := ← r.required "n_param" Json.index?
    nOuter := ← r.required "n_outer" Json.index? }

/-- In a tiling a stride is written as the pair of its step and its shift. -/
def Tiling.Dim.toJson (d : Tiling.Dim) : Json :=
  .obj [("stride", .option (fun s : Stride => .arr [.int s.step, s.shift.toJson]) d.stride),
    ("lower", d.lower.toJson)]

def Tiling.toJson (t : Tiling) : Json :=
  .obj [("name", .str t.name), ("dims", .list Tiling.Dim.toJson t.dims)]

def Memory.toJson : Memory → Json
  | .global => .str "Global"
  | .shared => .str "Shared"
  | .priv => .str "Private"

def Memory.ofJson? (j : Json) : Option Memory := do
  match ← j.unitCase? with
  | "Global" => some .global
  | "Shared" => some .shared
  | "Private" => some .priv
  | _ => none

end KernelMap
