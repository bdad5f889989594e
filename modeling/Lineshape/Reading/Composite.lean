import Lineshape.Reading.Curve

/-! # Reading composites

A composite is a sequence. It may begin with a header that names its type; any other sequence is a
plain sum. The other parts are its members, in order, and lists of ties and constraints, which are
attached when all members are there, wherever they stand.

* `Part`, `Opening`: the parts of a composite, read off a tree by `Part.ofExpr`.
* `Reader.addPart`, `Reader.addParts`: the members that parts describe. What a member sends up is
  kept by the composite if it keeps an attribute of that name, and goes further up otherwise.
* `Reader.readComposite`: the composite that a tree describes.
-/

namespace Lineshape
set_option autoImplicit false

/-! ## Parts -/

/-- How a sequence begins. -/
inductive Opening where
  /-- With the type of the composite, which is no member. -/
  | header (e : Expr)
  /-- With a part of a plain sum. -/
  | plain
  /-- With something that begins no composite. -/
  | invalid (e : Expr)

/-- How a sequence with this first part begins. -/
def Opening.of (first : Expr) : Opening :=
  let first := first.bracketsRemoved
  match Item.firstKey? first with
  | some .composite => .header first
  | some .name | some .ties | some .constraints => .plain
  | none => if Item.isNested first then .plain else .invalid first
  | _ => .invalid first

/-- Whether the first part is a header, and so no member. -/
def Opening.isHeader : Opening → Bool
  | .header _ => true
  | _ => false

/-- A part of a composite. -/
inductive Part where
  /-- A function. -/
  | function (e : Expr)
  /-- Ties and constraints of the composite. -/
  | conditions (e : Expr)
  /-- A composite in brackets, with the items behind it. -/
  | composite (opening : Opening) (parts : List Part) (items : List Expr)

namespace Part

/-- A part that is no composite. -/
def ofItems (e : Expr) : Part :=
  match Item.firstKey? e with
  | some .ties | some .constraints => .conditions e
  | _ => .function e

mutual
/-- The part that a tree describes. -/
def ofExpr : Expr → Part
  | ⟨name, op, []⟩ => ofItems ⟨name, op, []⟩
  | ⟨name, op, first :: more⟩ =>
    if name = [] ∧ more = [] then ofExpr first
    else if name = [';'] then
      let opening := Opening.of first
      .composite opening (if opening.isHeader then ofExprs more else ofExpr first :: ofExprs more)
        []
    else if name = [','] then
      match sequence? first with
      | some (opening, parts) => .composite opening parts more
      | none => ofItems ⟨name, op, first :: more⟩
    else ofItems ⟨name, op, first :: more⟩
/-- The parts that trees describe. -/
def ofExprs : List Expr → List Part
  | [] => []
  | e :: more => ofExpr e :: ofExprs more
/-- The opening and the parts of a sequence, perhaps in brackets. -/
def sequence? : Expr → Option (Opening × List Part)
  | ⟨_, _, []⟩ => none
  | ⟨name, _, first :: more⟩ =>
    if name = [] ∧ more = [] then sequence? first
    else if name = [';'] then
      let opening := Opening.of first
      some (opening, if opening.isHeader then ofExprs more else ofExpr first :: ofExprs more)
    else none
end

/-- The items of the ties and constraints among some parts. -/
def conditionItems (parts : List Part) : List Expr :=
  parts.flatMap fun
    | .conditions e => e.toList [',']
    | _ => []

end Part

namespace Reader

/-! ## Headers -/

/-- What an item of a header does to the composite. -/
def readHeaderItem (r : Reader) (m : Model) (item : Expr) : Act Parents Model :=
  match Item.assignment? item with
  | none => throw (.invalidInput (r.render item))
  | some (key, value) =>
    if m.hasAttribute key then Act.ofModel (m.setAttributeText key (r.unquoted value))
    else match Key.ofText key with
      | .parent attr => do
        r.sendUp attr value
        return m
      | _ => throw (.model (.unknownAttribute m.name key))

/-- What the items of a header do to the composite, in order. -/
def readHeaderItems (r : Reader) (m : Model) : List Expr → Act Parents Model
  | [] => pure m
  | item :: more => do readHeaderItems r (← r.readHeaderItem m item) more

/-- The composite that a header describes, without members. -/
def readHeader (r : Reader) (header : Expr) : Act Parents Model :=
  match header.toList [','] with
  | [] => throw (.invalidInput (r.render header))
  | head :: items =>
    match Item.assignment? head with
    | none => throw (.invalidInput (r.render header))
    | some (_, type) => do
      let m ← Act.ofModel (r.types.createComposite (r.render type))
      r.readHeaderItems m items

/-- The composite that an opening describes, without members. -/
def beginComposite (r : Reader) : Opening → Act Parents Model
  | .header e => r.readHeader e
  | .plain => Act.ofModel (r.types.createComposite Composite.plain.name)
  | .invalid e => throw (.invalidInput (r.render e))

/-! ## Members -/

/-- Hand the attributes that a member sent up to the composite, which keeps those that it has for
its members and sends the others further up. -/
def keep (m : Model) (place : Nat) : Parents → Act Parents Model
  | [] => pure m
  | (attr, value) :: more =>
    if m.hasLocal attr then do
      let m ← Act.ofModel (m.setLocal place attr value)
      keep m place more
    else do
      Act.put ((← Act.state).put attr value)
      keep m place more

/-- Add a member to a composite, with the attributes that it sent up. -/
def adopt (m new : Model) (sent : Parents) : Act Parents Model := do
  let place := m.members.length
  let m ← Act.change m (Act.addMember new)
  keep m place sent

/-- The items behind a composite in brackets, which only send attributes up. -/
def readTrailing (r : Reader) : List Expr → Act Parents Unit
  | [] => pure ()
  | item :: more =>
    match Item.assignment? item with
    | none => throw (.invalidInput (r.render item))
    | some (key, value) =>
      match Key.ofText key with
      | .parent attr => do
        r.sendUp attr value
        readTrailing r more
      | _ => throw (.invalidInput (r.render item))

/-! ## Ties and constraints -/

/-- Attach the ties or constraints of an item to a composite. -/
def addCondition (r : Reader) (item : Expr) : Act Model Unit :=
  match Item.assignment? item with
  | none => throw (.invalidInput (r.render item))
  | some (key, value) =>
    match Key.ofText key with
    | .ties => r.addTies value.bracketsRemoved
    | .constraints => r.addConstraints value.bracketsRemoved
    | _ => throw (.invalidInput (r.render item))

/-- Attach ties and constraints in order. -/
def addConditions (r : Reader) : List Expr → Act Model Unit
  | [] => pure ()
  | item :: more => do
    r.addCondition item
    addConditions r more

/-- Complete a composite that has all its members. -/
def endComposite (r : Reader) (parts : List Part) : Act Model Unit := do
  r.addConditions (Part.conditionItems parts)
  Act.applyTies
  let m ← Act.state
  Act.note (.createdComposite m.name m.members.length)

/-! ## Composites -/

mutual
/-- Add the member that a part describes to a composite; ties and constraints describe none. -/
def addPart (r : Reader) : Part → Model → Act Parents Model
  | .conditions _, m => pure m
  | .function e, m => do
    let (new, sent) ← Act.on [] (r.readFunction e)
    adopt m new sent
  | .composite opening parts items, m => do
    let (new, sent) ← Act.on [] do
      let inner ← r.beginComposite opening
      let inner ← addParts r parts inner
      let inner ← Act.change inner (r.endComposite parts)
      r.readTrailing items
      return inner
    adopt m new sent
/-- Add the members that parts describe to a composite, in order. -/
def addParts (r : Reader) : List Part → Model → Act Parents Model
  | [], m => pure m
  | part :: more, m => do addParts r more (← addPart r part m)
end

/-- The composite that an opening and parts describe. -/
def readParts (r : Reader) (opening : Opening) (parts : List Part) : Act Parents Model := do
  let m ← r.beginComposite opening
  let m ← r.addParts parts m
  Act.change m (r.endComposite parts)

/-- The composite that a tree describes. -/
def readComposite (r : Reader) (e : Expr) : Act Parents Model :=
  match Part.sequence? e with
  | some (opening, parts) => r.readParts opening parts
  | none => throw (.invalidInput (r.render e.bracketsRemoved))

end Reader
end Lineshape
