import KernelMap.Json.Basic
import KernelMap.Word

/-!
# KernelMap.Json.Record

Reading typed values out of JSON.

A record is written as an object or as the list of its fields in order.  In an
object unknown members are ignored and known ones must not be repeated; a list
may stop early, but only before fields that have a default.  A case of an
alternative is written as its name, or as an object with its name as the only
member.
-/

namespace KernelMap.Json

variable {α : Type}

/-! ## Scalars and lists -/

/-- A 64-bit word. -/
def word? : Json → Option Int
  | .int n => Word.check n
  | _ => none

/-- A position or count. -/
def index? : Json → Option Nat
  | .int n => if 0 ≤ n ∧ n.toNat < Index.limit then some n.toNat else none
  | _ => none

def bool? : Json → Option Bool
  | .bool b => some b
  | _ => none

def string? : Json → Option String
  | .str s => some s
  | _ => none

/-- Read every element of a list. -/
def mapElems? (f : Json → Option α) : List Json → Option (List α)
  | [] => some []
  | x :: xs => do return (← f x) :: (← mapElems? f xs)

/-- A list whose elements `f` reads. -/
def list? (f : Json → Option α) : Json → Option (List α)
  | .arr xs => mapElems? f xs
  | _ => none

/-- A value that may be `null`. -/
def option? (f : Json → Option α) : Json → Option (Option α)
  | .null => some none
  | j => (f j).map some

/-! ## Records -/

/-- The fields found for a record. -/
structure Record where
  fields : List (String × Json)
  /-- The record was written as a list. -/
  positional : Bool
deriving Inhabited

/-- Does no key occur twice? -/
def distinctKeys : List (String × Json) → Bool
  | [] => true
  | (k, _) :: rest => rest.all (·.1 != k) && distinctKeys rest

/-- The fields of a record with the given field names. -/
def record? (names : List String) : Json → Option Record
  | .obj ms =>
    let known := ms.filter fun m => names.contains m.1
    if distinctKeys known then some ⟨known, false⟩ else none
  | .arr xs => if xs.length ≤ names.length then some ⟨names.zip xs, true⟩ else none
  | _ => none

namespace Record

/-- A field that must be there. -/
def required (r : Record) (name : String) (f : Json → Option α) : Option α := do
  f (← r.fields.lookup name)

/-- A field that may be `null`, and may be left out of an object. -/
def optional (r : Record) (name : String) (f : Json → Option α) : Option (Option α) :=
  match r.fields.lookup name with
  | some j => option? f j
  | none => if r.positional then none else some none

/-- A field with a default. -/
def withDefault (r : Record) (name : String) (d : α) (f : Json → Option α) : Option α :=
  match r.fields.lookup name with
  | some j => f j
  | none => some d

end Record

/-! ## Alternatives -/

/-- The name of a case and its contents, if any. -/
def case? : Json → Option (String × Option Json)
  | .str s => some (s, none)
  | .obj [(s, j)] => some (s, some j)
  | _ => none

/-- The name of a case without contents. -/
def unitCase? (j : Json) : Option String :=
  match case? j with
  | some (s, none) => some s
  | some (s, some .null) => some s
  | _ => none

end KernelMap.Json
