import Lineshape.Number.Shortest
import Lineshape.Text.Blank

/-! # Attributes

An attribute configures a function and is not fitted. It has one of five types, and keeps it.

* `Attribute.read?`: the value of a type that a text stands for.
* `Attribute.text`: the value as text; `Attribute.modelText` quotes strings, as in a model text.
* `Attribute.same`: equality of values, numbers compared as numbers.
-/

namespace Lineshape
set_option autoImplicit false

/-- The types of attributes. -/
inductive AttributeType where
  | int | double | bool | string | vector
deriving DecidableEq

/-- The name of a type in messages. -/
def AttributeType.name : AttributeType → Text
  | .int => "int".toList
  | .double => "double".toList
  | .bool => "bool".toList
  | .string => "string".toList
  | .vector => "vector".toList

/-- The value of an attribute. -/
inductive Attribute where
  /-- A whole number of 64 bits. -/
  | int (value : Int)
  /-- A number. -/
  | double (value : Float)
  /-- A truth value. -/
  | bool (value : Bool)
  /-- A text. -/
  | string (value : Text)
  /-- A list of numbers. -/
  | vector (values : List Float)
deriving DecidableEq

namespace Attribute

/-- The type of a value. -/
def type : Attribute → AttributeType
  | int _ => .int
  | double _ => .double
  | bool _ => .bool
  | string _ => .string
  | vector _ => .vector

/-- A truth value: a word in any letter case, or a digit. -/
def bool? (s : Text) : Option Bool :=
  let word := s.map Char.toLower
  if word = "true".toList ∨ word = "1".toList then some true
  else if word = "false".toList ∨ word = "0".toList then some false
  else none

/-- The content of round brackets around a text; another text is its own content. -/
def unbracketed (s : Text) : Text :=
  match s with
  | '(' :: inner => if inner.getLast? = some ')' then inner.dropLast else s
  | _ => s

/-- Numbers separated by commas and blanks, with or without brackets around them. -/
def vector? (s : Text) : Option (List Float) :=
  let items := Text.fields (fun c => c == ',' || Text.isBlank c) (unbracketed s)
  (items.filter (· ≠ [])).mapM Number.read?

/-- The value of a type that a text without blanks at its ends stands for. -/
def read? (type : AttributeType) (s : Text) : Option Attribute :=
  match type with
  | .int => (Whole.integer? s).map int
  | .double => (Number.read? s).map double
  | .bool => (bool? s).map bool
  | .string => some (string s)
  | .vector => (vector? s).map vector

/-- The value as text. -/
def text : Attribute → Text
  | int value => Text.ofInt value
  | double value => Number.plain value
  | bool true => "true".toList
  | bool false => "false".toList
  | string value => value
  | vector values => '(' :: List.intercalate [','] (values.map Number.plain) ++ [')']

/-- The value as it is written in a model text: a string stands between double quotes. -/
def modelText : Attribute → Text
  | string value => '"' :: value ++ ['"']
  | other => other.text

/-- Whether two values are equal, numbers compared as numbers. -/
def same : Attribute → Attribute → Bool
  | int a, int b => a = b
  | double a, double b => a == b
  | bool a, bool b => a = b
  | string a, string b => a = b
  | vector a, vector b => a == b
  | _, _ => false

/-- What is read has the type asked for. -/
theorem type_of_read? {type : AttributeType} {s : Text} {value : Attribute}
    (h : read? type s = some value) : value.type = type := by
  cases type with
  | string => cases h; rfl
  | int | double | bool | vector =>
    obtain ⟨_, _, rfl⟩ := Option.map_eq_some_iff.1 h
    rfl

example : vector? "(1, 2,3)".toList = vector? "1 2 3".toList ∧ vector? "()".toList = some [] := by
  decide

end Attribute
end Lineshape
