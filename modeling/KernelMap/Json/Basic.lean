/-!
# KernelMap.Json.Basic

JSON values whose numbers are integers.

The members of an object are kept in order, repetitions included, since a
repeated member is refused where a record is read.  Numbers with a fraction or
an exponent are told apart from integers and have no value.  Neither has a string
with half of a surrogate pair: such values can be passed over, but not used.
-/

namespace KernelMap

/-- A JSON value. -/
inductive Json where
  | null
  | bool (value : Bool)
  | int (value : Int)
  /-- A number that is not written as an integer. -/
  | real
  | str (value : String)
  /-- A string, or an object with a member name, that does not spell a text. -/
  | illegible
  | arr (elems : List Json)
  | obj (members : List (String × Json))
deriving Repr, Inhabited

namespace Json

/-- A natural number. -/
def nat (n : Nat) : Json := .int n

/-- A list of values. -/
def list {α : Type} (f : α → Json) (xs : List α) : Json := .arr (xs.map f)

/-- An optional value, `null` if it is missing. -/
def option {α : Type} (f : α → Json) : Option α → Json
  | none => .null
  | some a => f a

/-- A value tagged by the name of its case. -/
def tagged (tag : String) (value : Json) : Json := .obj [(tag, value)]

end Json

end KernelMap
