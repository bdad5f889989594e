import Lineshape.Text.Basic

/-! # Diagnostics

A diagnostic tells what is wrong with a text and, where it is known, at which character. Its
position is counted in characters, and so always lies between two of them.

* `Diagnostic.ofByte`: a diagnostic for a byte of the text, moved back to the start of its character.
* `Diagnostic.offset?`: the position in bytes.
* `Diagnostic.render`: the message with an excerpt of the text and a caret under the character.
* `Span`: a range of bytes.
-/

namespace Lineshape
set_option autoImplicit false

/-- A range of bytes, the end left out. -/
structure Span where
  /-- The first byte. -/
  start : Nat := 0
  /-- The byte behind the last one. -/
  stop : Nat := 0

/-- Whether a range holds a byte. -/
def Span.isValid (s : Span) : Bool := s.start < s.stop

/-- The range of one byte. -/
def Span.single (start : Nat) : Span := ⟨start, start + 1⟩

/-- A message about a text, with the number of characters before the offending one. -/
structure Diagnostic where
  /-- What is wrong. -/
  message : Text
  /-- The text that was read. -/
  text : Text := []
  /-- The number of characters before the offending one, if it is known. -/
  position? : Option Nat := none

namespace Diagnostic

/-- The number of characters shown on each side of the offending one. -/
def window : Nat := 10

/-- A diagnostic for the character that a byte of the text belongs to. An offset behind the end
stands for the end. -/
def ofByte (message text : Text) (offset : Nat) : Diagnostic :=
  ⟨message, text, some (Text.charsWithin offset text)⟩

/-- The byte at which the offending character begins. -/
def offset? (d : Diagnostic) : Option Nat :=
  d.position?.map fun n => Text.byteSize (d.text.take n)

/-- The byte range of the position. -/
def span? (d : Diagnostic) : Option Span := d.offset?.map Span.single

/-- The excerpt around a position: the text between at most `window` characters before it and at
most `window` behind the offending character, an ellipsis marking each side that is cut. -/
def excerpt (text : Text) (position : Nat) : Text :=
  let before := text.take position
  let behind := text.drop position
  (if window < before.length then "...".toList else []) ++
    before.drop (before.length - window) ++ behind.take (window + 1) ++
    (if window + 1 < behind.length then "...".toList else [])

/-- The column of the offending character within the excerpt. -/
def caretColumn (text : Text) (position : Nat) : Nat :=
  let before := (text.take position).length
  if window < before then "...".length + window else before

/-- The message, an excerpt and a caret; or the message alone if there is no position. -/
def render (d : Diagnostic) : Text :=
  match d.position? with
  | none => d.message
  | some position =>
    d.message ++ " at\n\n".toList ++ excerpt d.text position ++
      '\n' :: List.replicate (caretColumn d.text position) ' ' ++ ['^']

end Diagnostic
end Lineshape
