import Lineshape.Reading.Composite
import Lineshape.Model.Text

/-! # Reading models

* `Reader.readModel`: the model that a text describes, a composite or a single function.
* `Reader.readText`: the same as a value, with the events on the way.
* `Reader.readTexts`: several texts, each on its own.
-/

namespace Lineshape.Reader
set_option autoImplicit false

/-- The model that a text describes. Attributes sent up with no composite around them are told in a
warning. -/
def readModel (r : Reader) (s : Text) : Act Unit Model := do
  match Expr.parse r.operators r.depth s with
  | .error error => throw (.unreadable s error)
  | .ok tree =>
    Act.note (.parsed tree)
    let e := tree.bracketsRemoved
    if e.isEmptyMarker then throw .noFunction
    else
      let (m, sent) ← Act.on [] (if e.form = .sequence then r.readComposite e else r.readFunction e)
      if !sent.isEmpty then Act.note (.noEnclosing (Text.sortDistinct (Named.names sent)))
      Act.note (.created m.name)
      return m

/-- The model that a text describes or the error, and the events on the way. -/
def readText (r : Reader) (s : Text) : Except ReadError Model × List Event :=
  let (result, work) := (r.readModel s).perform ()
  (result, work.journal)

/-- The model that a text describes or the error. -/
def read (r : Reader) (s : Text) : Except ReadError Model := (r.readText s).1

/-- The models that texts describe, in their order. -/
def readTexts (r : Reader) (texts : List Text) : List (Except ReadError Model) := texts.map r.read

end Lineshape.Reader
