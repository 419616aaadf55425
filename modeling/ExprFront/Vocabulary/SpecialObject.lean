import ExprFront.Vocabulary.Release

/-!
# Special objects

Special objects are the builtin names, written with a leading `@`: the builtin
types and a few meta objects. The set is closed.
-/

namespace ExprFront

/-- The special objects of the language. -/
inductive SpecialObject where
  | int
  | uint
  | real
  | bit
  | octet
  | str
  | nothing
  | anything
  | typeOf
  | value
  | selfObject
deriving DecidableEq

/-- What is fixed about a special object. -/
structure SpecialObjectEntry where
  /-- The name under which the object is listed. -/
  label : String
  /-- The name without its leading mark. -/
  spelling : String
  isType : Bool
  since : Release

namespace SpecialObject

/-- The table of special objects. -/
def entry : SpecialObject → SpecialObjectEntry
  | int => ⟨"Int", "int", true, .first⟩
  | uint => ⟨"Uint", "uint", true, .first⟩
  | real => ⟨"Real", "real", true, .first⟩
  | bit => ⟨"Bit", "bit", true, .first⟩
  | octet => ⟨"Octet", "octet", true, .first⟩
  | str => ⟨"Str", "str", true, .first⟩
  | nothing => ⟨"None", "none", false, .first⟩
  | anything => ⟨"Any", "any", false, .first⟩
  | typeOf => ⟨"Type", "type", false, .first⟩
  | value => ⟨"Value", "value", false, .first⟩
  | selfObject => ⟨"SelfObject", "self", false, .first⟩

/-- All special objects, in the order of the table. -/
def all : List SpecialObject :=
  [int, uint, real, bit, octet, str, nothing, anything, typeOf, value, selfObject]

/-- No special object is missing from the list. -/
theorem mem_all (o : SpecialObject) : o ∈ all := by
  cases o <;> decide

/-- The name under which the object is listed. -/
def label (o : SpecialObject) : String := o.entry.label

/-- The name without its leading mark. -/
def spelling (o : SpecialObject) : String := o.entry.spelling

/-- The special object whose name is written exactly so. -/
def ofSpelling? (text : String) : Option SpecialObject :=
  all.find? fun o => o.spelling == text

end SpecialObject

end ExprFront
