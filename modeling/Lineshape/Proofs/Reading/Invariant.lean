import Lineshape.Proofs.Reading.Routing

/-! # Invariants of reading

A property of new functions that is kept by steps, by adding members and by attributes of members
holds of every model that is read (`Reader.holds_of_read`). -/

namespace Lineshape.Reader
set_option autoImplicit false

/-- A property that all changes while a text is read keep. -/
structure Invariant (r : Reader) (P : Model → Prop) : Prop where
  create : ∀ {name m}, r.types.create name = .ok m → P m
  step : ∀ {m m'}, P m → r.Step m m' → P m'
  member : ∀ {c members new}, P (.composite c members) → P new →
    P (.composite c (members ++ [⟨c.localDefaults, new⟩]))
  setLocal : ∀ {m m' : Model} {i name s}, P m → m.setLocal i name s = .ok m' → P m'

variable {r : Reader} {P : Model → Prop}

theorem Invariant.reaches (hP : r.Invariant P) {m m' : Model} (h : r.Reaches m m') (hm : P m) : P m' :=
  h.keeps (fun _ _ hm hstep => hP.step hm hstep) hm

theorem holds_of_keep (hP : r.Invariant P) {place : Nat} {sent : Parents} {m m' : Model}
    {w w' : Work Parents} (hm : P m) (h : Act.Runs (keep m place sent) w m' w') : P m' := by
  induction sent generalizing m w with
  | nil =>
    obtain ⟨rfl, -⟩ := Act.runs_pure.1 h
    exact hm
  | cons p sent ih =>
    obtain ⟨-, m₁, hset, h⟩ | ⟨-, h⟩ := runs_keep_cons.1 h
    · exact ih (hP.setLocal hm hset) h
    · exact ih hm h

theorem holds_of_adopt (hP : r.Invariant P) {c : Composite} {members : List (Member Model)}
    {new m' : Model} {sent : Parents} {w w' : Work Parents} (hm : P (.composite c members))
    (hnew : P new) (h : Act.Runs (adopt (.composite c members) new sent) w m' w') : P m' :=
  holds_of_keep hP (hP.member hm hnew) (runs_adopt.1 h)

theorem holds_of_readFunction (hP : r.Invariant P) {e : Expr} {m : Model} {w w' : Work Parents}
    (h : Act.Runs (r.readFunction e) w m w') : P m := by
  obtain ⟨type, m₀, -, hcreate, hreaches⟩ := exists_reaches_readFunction h
  exact hP.reaches hreaches (hP.create hcreate)

theorem holds_of_beginComposite (hP : r.Invariant P) {o : Opening} {m : Model} {w w' : Work Parents}
    (h : Act.Runs (r.beginComposite o) w m w') : P m := by
  obtain ⟨type, m₀, -, hcreate, hreaches⟩ := exists_reaches_beginComposite h
  exact hP.reaches hreaches (hP.create (Catalogue.createComposite_eq_ok hcreate).1)

/-- Adding the members of parts keeps an invariant. -/
def HoldsOfPart (r : Reader) (P : Model → Prop) (part : Part) : Prop :=
  ∀ {c : Composite} {members : List (Member Model)} {m : Model} {w w' : Work Parents},
    P (.composite c members) → Act.Runs (r.addPart part (.composite c members)) w m w' →
      P m ∧ ∃ c' members', m = .composite c' members'

theorem composite_of_keep {c : Composite} {members : List (Member Model)} {place : Nat}
    {sent : Parents} {m : Model} {w w' : Work Parents}
    (h : Act.Runs (keep (.composite c members) place sent) w m w') :
    ∃ c' members', m = .composite c' members' := by
  induction sent generalizing members w with
  | nil =>
    obtain ⟨rfl, -⟩ := Act.runs_pure.1 h
    exact ⟨c, members, rfl⟩
  | cons p sent ih =>
    obtain ⟨-, m₁, hset, h⟩ | ⟨-, h⟩ := runs_keep_cons.1 h
    · obtain ⟨mem, old, v, -, -, -, rfl⟩ := Model.setLocal_eq_ok hset
      exact ih h
    · exact ih h

theorem composite_of_adopt {c : Composite} {members : List (Member Model)} {new m : Model}
    {sent : Parents} {w w' : Work Parents}
    (h : Act.Runs (adopt (.composite c members) new sent) w m w') :
    ∃ c' members', m = .composite c' members' :=
  composite_of_keep (runs_adopt.1 h)

theorem holds_of_addParts {parts : List Part} (hparts : ∀ p ∈ parts, r.HoldsOfPart P p)
    {c : Composite} {members : List (Member Model)} {m : Model} {w w' : Work Parents}
    (hm : P (.composite c members)) (h : Act.Runs (r.addParts parts (.composite c members)) w m w') :
    P m := by
  induction parts generalizing c members w with
  | nil =>
    obtain ⟨rfl, -⟩ := Act.runs_pure.1 h
    exact hm
  | cons part parts ih =>
    obtain ⟨m₁, v, hpart, h⟩ := Act.runs_bind.1 h
    obtain ⟨hm₁, c', members', rfl⟩ := hparts part List.mem_cons_self hm hpart
    exact ih (fun p hp => hparts p (List.mem_cons_of_mem part hp)) hm₁ h

theorem holds_of_readParts (hr : r.types.Unmarked) (hP : r.Invariant P) {o : Opening}
    {parts : List Part} (hparts : ∀ p ∈ parts, r.HoldsOfPart P p) {m : Model} {w w' : Work Parents}
    (h : Act.Runs (r.readParts o parts) w m w') : P m := by
  obtain ⟨m₀, v₀, hbegin, h⟩ := Act.runs_bind.1 h
  obtain ⟨m₁, v₁, hadd, h⟩ := Act.runs_bind.1 h
  obtain ⟨inner, hend, rfl, -⟩ := Act.runs_change.1 h
  obtain ⟨⟨c₀, rfl, -⟩, -⟩ := beginComposite_runs hr hbegin
  have hm₁ := holds_of_addParts hparts (holds_of_beginComposite hP hbegin) hadd
  exact hP.reaches (reaches_endComposite hend) hm₁

theorem holdsOfPart (hr : r.types.Unmarked) (hP : r.Invariant P) (part : Part) :
    r.HoldsOfPart P part := by
  induction part using Part.induct with
  | conditions e =>
    intro c members m w w' hm h
    obtain ⟨rfl, -⟩ := Act.runs_pure.1 h
    exact ⟨hm, c, members, rfl⟩
  | function e =>
    intro c members m w w' hm h
    obtain ⟨new, v, hread, hadopt⟩ := runs_addPart_function.1 h
    exact ⟨holds_of_adopt hP hm (holds_of_readFunction hP hread) hadopt, composite_of_adopt hadopt⟩
  | composite o parts items ih =>
    intro c members m w w' hm h
    obtain ⟨new, v, v', hread, -, hadopt⟩ := runs_addPart_composite.1 h
    exact ⟨holds_of_adopt hP hm (holds_of_readParts hr hP ih hread) hadopt, composite_of_adopt hadopt⟩

theorem holds_of_readComposite (hr : r.types.Unmarked) (hP : r.Invariant P) {e : Expr} {m : Model}
    {w w' : Work Parents} (h : Act.Runs (r.readComposite e) w m w') : P m := by
  obtain ⟨o, parts, -, h⟩ := runs_readComposite.1 h
  exact holds_of_readParts hr hP (fun p _ => holdsOfPart hr hP p) h

/-- An invariant holds of every model that is read. -/
theorem holds_of_read (hr : r.types.Unmarked) (hP : r.Invariant P) {s : Text} {m : Model}
    (h : r.read s = .ok m) : P m := by
  obtain ⟨tree, v, -, -, h⟩ := read_eq_ok.1 h
  rw [readTree] at h
  split at h
  · exact holds_of_readComposite hr hP h
  · exact holds_of_readFunction hP h

end Lineshape.Reader
