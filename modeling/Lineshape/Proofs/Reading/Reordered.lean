import Lineshape.Proofs.Reading.Factors
import Lineshape.Proofs.Reading.Lists
import Lineshape.Proofs.Reading.Sent

/-! # Items in another order

Every item of a function writes to a part of its own: an attribute, a parameter, the ties, the bounds,
or the attributes on their way up (`Reader.Writes`). What it writes comes from the names of the
parameters and the types of the attributes alone, and for most shapes no item changes those. So items
that write to different parts can change places (`Write.comm`), and a function is read as the same
function from its items in every order that keeps the items for one part in order
(`Reader.runs_readFunction_reordered`). -/

namespace Lineshape
set_option autoImplicit false

/-! ## Lists of writes -/

namespace Named

variable {α : Type}

/-- Two names can be set in either order. -/
theorem set_comm {name other : Text} (h : name ≠ other) (x y : α) (l : Named α) :
    set name x (set other y l) = set other y (set name x l) := by
  induction l with
  | nil => rfl
  | cons p l ih =>
    obtain ⟨n, old⟩ := p
    by_cases hn : n = name
    · subst hn
      simp [set, h]
    · by_cases ho : n = other
      · subst ho
        simp [set, hn]
      · simp [set, hn, ho, ih]

end Named

/-- What moves to the front past others with which it commutes changes nothing. -/
theorem foldl_bubble {β γ : Type} {act : γ → β → γ} {b : β} {front : List β} (back : List β)
    (hcomm : ∀ x ∈ front, ∀ c, act (act c x) b = act (act c b) x) (c : γ) :
    (front ++ b :: back).foldl act c = (b :: (front ++ back)).foldl act c := by
  induction front generalizing c with
  | nil => rfl
  | cons x front ih =>
    obtain ⟨hx, hfront⟩ := List.forall_mem_cons.1 hcomm
    rw [List.cons_append, List.foldl_cons, ih hfront, List.foldl_cons, hx]
    rfl

/-- If writes of different kinds commute, then a list that keeps each kind in order asks for writes
that come to the same. -/
theorem exists_writes_of_reordered {α β γ κ : Type} [DecidableEq κ] {kind : α → κ}
    {R : α → β → Prop} {act : γ → β → γ}
    (hcomm : ∀ a a' b b', R a b → R a' b' → kind a ≠ kind a' →
      ∀ c, act (act c b) b' = act (act c b') b)
    {as as' : List α} (hkinds : ∀ k, as'.filter (kind · = k) = as.filter (kind · = k))
    {bs : List β} (h : List.Forall₂ R as bs) :
    ∃ bs', List.Forall₂ R as' bs' ∧ ∀ c, bs'.foldl act c = bs.foldl act c := by
  induction as' generalizing as bs with
  | nil =>
    cases h with
    | nil => exact ⟨[], .nil, fun _ => rfl⟩
    | @cons a b as bs =>
      have ha := hkinds (kind a)
      simp at ha
  | cons a as' ih =>
    have ha := hkinds (kind a)
    rw [List.filter_cons_of_pos (by simp)] at ha
    -- the first of its kind in the other list
    obtain ⟨front, back, rfl, hfront, -, hback⟩ := List.filter_eq_cons_iff.1 ha.symm
    obtain ⟨bfront, bback, rfl, hf, hb⟩ := Result.forall₂_append_left h
    obtain ⟨b, bback, hab, hrestb, rfl⟩ := List.forall₂_cons_left_iff.1 hb
    have hrest : ∀ k, as'.filter (kind · = k) = (front ++ back).filter (kind · = k) := by
      intro k
      have hk := hkinds k
      rw [List.filter_append, List.filter_cons, List.filter_cons] at hk
      rw [List.filter_append]
      by_cases hka : kind a = k
      · subst hka
        have hnil : front.filter (kind · = kind a) = [] :=
          List.filter_eq_nil_iff.2 fun x hx => by simpa using hfront x hx
        rw [hnil, List.nil_append, ← hback]
      · simpa [hka] using hk
    obtain ⟨bs', hbs', hfold⟩ := ih hrest (List.rel_append hf hrestb)
    refine ⟨b :: bs', .cons hab hbs', fun c => ?_⟩
    rw [foldl_bubble bback, List.foldl_cons, List.foldl_cons, hfold]
    intro x hx c
    obtain ⟨y, hy, hyx⟩ := Result.exists_of_forall₂ hf hx
    exact hcomm y a x b hyx hab (by simpa using hfront y hy) c

/-! ## Frames -/

namespace Model

/-- A model of the same name and with the same parameters, which takes the same ties and bounds. -/
def TakesAs (m m' : Model) : Prop := m'.name = m.name ∧ m'.hasParameter = m.hasParameter

theorem TakesAs.refl (m : Model) : m.TakesAs m := ⟨rfl, rfl⟩

theorem TakesAs.trans {m m' m'' : Model} (h : m.TakesAs m') (h' : m'.TakesAs m'') :
    m.TakesAs m'' := ⟨h'.1.trans h.1, h'.2.trans h.2⟩

theorem takesAs_withTies (ties : List Tie) (m : Model) : m.TakesAs (m.withTies ties) :=
  ⟨by cases m <;> rfl, funext fun name => hasParameter_withTies ties m name⟩

theorem takesAs_withBounds (bounds : List Bound) (m : Model) : m.TakesAs (m.withBounds bounds) :=
  ⟨by cases m <;> rfl, funext fun name => hasParameter_withBounds bounds m name⟩

/-- The model with more ties, each in the place of an earlier one on the same parameter. -/
def putTies (ties : List Tie) (m : Model) : Model :=
  m.withTies (ties.foldl (fun l tie => tie.put l) m.ties)

/-- The model with more bounds, each in the place of an earlier one on the same parameter. -/
def putBounds (bounds : List Bound) (m : Model) : Model :=
  m.withBounds (bounds.foldl (fun l b => b.put l) m.bounds)

/-- A way to put more on a model that leaves alone what it takes. -/
structure Putting {α : Type} (put : List α → Model → Model) : Prop where
  takesAs : ∀ (l : List α) (m : Model), m.TakesAs (put l m)
  nil : ∀ m : Model, put [] m = m
  append : ∀ (l l' : List α) (m : Model), put l' (put l m) = put (l ++ l') m

theorem putting_ties : Putting putTies where
  takesAs _ m := takesAs_withTies _ m
  nil := withTies_ties
  append l l' m := by rw [putTies, putTies, ties_withTies, withTies_withTies, putTies, List.foldl_append]

theorem putting_bounds : Putting putBounds where
  takesAs _ m := takesAs_withBounds _ m
  nil := withBounds_bounds
  append l l' m := by
    rw [putBounds, putBounds, bounds_withBounds, withBounds_withBounds, putBounds, List.foldl_append]

end Model

/-! ## Lists of ties and constraints -/

namespace Act

variable {α : Type} {put : List α → Model → Model} {m m' m'' : Model}

/-- The act puts something on a model, and the same on all models that take the same. -/
def Puts (put : List α → Model → Model) (act : Act Model Unit) (m m' : Model) : Prop :=
  ∃ l, m' = put l m ∧ ∀ n, m.TakesAs n → Gives act n () (put l n)

theorem Puts.pure (hput : Model.Putting put) (m : Model) : Puts put (pure ()) m m := by
  refine ⟨[], (hput.nil m).symm, fun n _ => ?_⟩
  rw [hput.nil]
  exact gives_pure

theorem Puts.bind (hput : Model.Putting put) {x : Act Model Unit} {y : Unit → Act Model Unit}
    (hx : Puts put x m m') (hy : Puts put (y ()) m' m'') : Puts put (x >>= y) m m'' := by
  obtain ⟨l, rfl, hx⟩ := hx
  obtain ⟨l', rfl, hy⟩ := hy
  refine ⟨l ++ l', hput.append l l' m, fun n hn => ?_⟩
  rw [← hput.append]
  refine (hx n hn).bind (hy _ ?_)
  have hm := hput.takesAs l m
  exact ⟨((hput.takesAs l n).1.trans hn.1).trans hm.1.symm,
    ((hput.takesAs l n).2.trans hn.2).trans hm.2.symm⟩

end Act

namespace Reader

variable {r : Reader} {w w' : Work Model} {u : Unit}

theorem puts_tie {parameter formula : Text} (h : Act.Runs (Act.tie parameter formula) w u w') :
    Act.Puts Model.putTies (Act.tie parameter formula) w.state w'.state := by
  obtain ⟨t, hattach, -⟩ := Act.runs_tie.1 h
  obtain ⟨hcreate, hstate⟩ := Model.attachTie_eq_ok.1 hattach
  refine ⟨[t], hstate, fun n hn => Act.gives_tie (Model.attachTie_eq_ok.2 ⟨?_, rfl⟩)⟩
  rw [hn.1, hn.2]
  exact hcreate

theorem puts_tieAll {formula : Text} {parameters : List Text}
    (h : Act.Runs (tieAll formula parameters) w u w') :
    Act.Puts Model.putTies (tieAll formula parameters) w.state w'.state := by
  induction parameters generalizing w with
  | nil =>
    obtain ⟨-, rfl⟩ := Act.runs_pure.1 h
    exact .pure Model.putting_ties _
  | cons parameter parameters ih =>
    obtain ⟨_, v, htie, h⟩ := Act.runs_bind.1 h
    exact (puts_tie htie).bind Model.putting_ties (ih h)

theorem puts_addTie {e : Expr} (h : Act.Runs (r.addTie e) w u w') :
    Act.Puts Model.putTies (r.addTie e) w.state w'.state := by
  rw [addTie] at h ⊢
  split at h
  · exact puts_tieAll h
  · exact absurd h Act.runs_throw

/-- A list of ties puts the same ties on all models that take the same. -/
theorem puts_addTies {e : Expr} (h : Act.Runs (r.addTies e) w u w') :
    Act.Puts Model.putTies (r.addTies e) w.state w'.state := by
  rw [addTies] at h ⊢
  generalize tieItems e = items at h ⊢
  induction items generalizing w with
  | nil =>
    obtain ⟨-, rfl⟩ := Act.runs_pure.1 h
    exact .pure Model.putting_ties _
  | cons item items ih =>
    obtain ⟨_, v, htie, h⟩ := Act.runs_bind.1 h
    exact (puts_addTie htie).bind Model.putting_ties (ih h)

theorem asks_congr {m n : Model} (h : m.TakesAs n) : r.Asks n = r.Asks m := by
  funext p b
  rw [Asks, createBound, h.1, h.2]
  rfl

theorem puts_addConstraint {chain : Expr} {factor? : Option Expr}
    (h : Act.Runs (r.addConstraint chain factor?) w u w') :
    Act.Puts Model.putBounds (r.addConstraint chain factor?) w.state w'.state := by
  obtain ⟨b, hasks, hattach, -⟩ := runs_addConstraint.1 h
  rw [Model.attachBound, if_pos hasks.hasParameter] at hattach
  refine ⟨[b], (Except.ok.inj hattach).symm, fun n hn journal => ?_⟩
  have hasks' : r.Asks n (chain, factor?) b := by rwa [asks_congr hn]
  refine ⟨_, runs_addConstraint.2 ⟨b, hasks', ?_, rfl⟩⟩
  rw [Model.attachBound, if_pos hasks'.hasParameter]
  rfl

/-- A list of constraints puts the same bounds on all models that take the same. -/
theorem puts_addConstraints {e : Expr} (h : Act.Runs (r.addConstraints e) w u w') :
    Act.Puts Model.putBounds (r.addConstraints e) w.state w'.state := by
  rw [addConstraints] at h ⊢
  generalize Clause.ofItems (e.toList [',']) = clauses at h ⊢
  induction clauses generalizing w with
  | nil =>
    obtain ⟨-, rfl⟩ := Act.runs_pure.1 h
    exact .pure Model.putting_bounds _
  | cons clause clauses ih =>
    cases clause with
    | constraint chain factor? =>
      obtain ⟨_, v, hadd, h⟩ := Act.runs_bind.1 h
      exact (puts_addConstraint hadd).bind Model.putting_bounds (ih h)
    | stray item =>
      obtain ⟨m, v, hstate, h⟩ := Act.runs_bind.1 h
      obtain ⟨rfl, rfl⟩ := Act.runs_state.1 hstate
      obtain ⟨_, v', hnote, h⟩ := Act.runs_bind.1 h
      cases Act.runs_note.1 hnote
      obtain ⟨bounds, hstate, hmore⟩ := ih h
      refine ⟨bounds, hstate, fun n hn => ?_⟩
      exact Act.gives_state.bind ((Act.gives_note _).bind (hmore n hn))

end Reader

/-! ## What an item writes -/

/-- The shapes whose parameters do not depend on an attribute. -/
def Shape.isFixed : Shape → Bool
  | .polynomial | .chebyshev | .userFunction => false
  | _ => true

/-- A curve of the same shape, with parameters of the same names and attributes of the same types. -/
structure Curve.Frames (c c' : Curve) : Prop where
  shape : c'.shape = c.shape
  names : Named.names c'.parameters = Named.names c.parameters
  types : ∀ name, (Named.get? name c'.attributes).map Attribute.type =
    (Named.get? name c.attributes).map Attribute.type

/-- What an item of a function changes. -/
inductive Write where
  /-- The value of an attribute. -/
  | slot (name : Text) (value : Attribute)
  /-- The value of a parameter. -/
  | parameter (name : Text) (value : Float)
  /-- Ties in order. -/
  | ties (ties : List Tie)
  /-- Bounds in order. -/
  | bounds (bounds : List Bound)
  /-- Nothing of the function itself. -/
  | parent

namespace Write

/-- The curve with the change made. -/
def on (c : Curve) : Write → Curve
  | slot name value => { c with attributes := Named.set name value c.attributes }
  | parameter name value => { c with parameters := Named.set name value c.parameters }
  | ties l => { c with ties := l.foldl (fun l tie => tie.put l) c.ties }
  | bounds l => { c with bounds := l.foldl (fun l b => b.put l) c.bounds }
  | parent => c

/-- Two changes of different parts. -/
def Apart : Write → Write → Prop
  | slot name _, slot other _ => name ≠ other
  | parameter name _, parameter other _ => name ≠ other
  | ties _, ties _ => False
  | bounds _, bounds _ => False
  | _, _ => True

/-- Changes of different parts can be made in either order. -/
theorem comm {a b : Write} (h : a.Apart b) (c : Curve) : b.on (a.on c) = a.on (b.on c) := by
  cases a <;> cases b <;> first | rfl | exact h.elim | skip
  · exact congrArg (fun l => { c with attributes := l }) (Named.set_comm (Ne.symm h) _ _ _)
  · exact congrArg (fun l => { c with parameters := l }) (Named.set_comm (Ne.symm h) _ _ _)

theorem frames_on (w : Write) {c : Curve}
    (hw : ∀ name value, w = slot name value →
      ∃ old, Named.get? name c.attributes = some old ∧ old.type = value.type) : c.Frames (w.on c) := by
  cases w with
  | slot name value =>
    obtain ⟨old, hold, htype⟩ := hw name value rfl
    refine ⟨rfl, rfl, fun other => ?_⟩
    by_cases ho : other = name
    · subst ho
      rw [on, Named.get?_set_self (by rw [Named.has, hold]; rfl), hold, Option.map_some, Option.map_some, htype]
    · rw [on, Named.get?_set_of_ne ho]
  | parameter name value => exact ⟨rfl, Named.names_set _ _ _, fun _ => rfl⟩
  | ties | bounds | parent => exact ⟨rfl, rfl, fun _ => rfl⟩

end Write

namespace Curve.Frames

variable {c c' c'' : Curve}

theorem refl (c : Curve) : c.Frames c := ⟨rfl, rfl, fun _ => rfl⟩

theorem trans (h : c.Frames c') (h' : c'.Frames c'') : c.Frames c'' :=
  ⟨h'.shape.trans h.shape, h'.names.trans h.names, fun name => (h'.types name).trans (h.types name)⟩

theorem symm (h : c.Frames c') : c'.Frames c :=
  ⟨h.shape.symm, h.names.symm, fun name => (h.types name).symm⟩

theorem has_attribute (h : c.Frames c') (name : Text) :
    Named.has name c'.attributes = Named.has name c.attributes := by
  have htypes := congrArg Option.isSome (h.types name)
  rwa [Option.isSome_map, Option.isSome_map] at htypes

theorem has_parameter (h : c.Frames c') (name : Text) :
    Named.has name c'.parameters = Named.has name c.parameters := by
  rw [Bool.eq_iff_iff, Named.has_iff_mem_names, Named.has_iff_mem_names, h.names]

theorem takesAs (h : c.Frames c') : (Model.curve c).TakesAs (.curve c') := by
  refine ⟨congrArg Shape.name h.shape, funext fun name => ?_⟩
  change (Named.index? name c'.parameters).isSome = (Named.index? name c.parameters).isSome
  rw [Named.isSome_index?, Named.isSome_index?, h.has_parameter]

end Curve.Frames

namespace Reader

variable {r : Reader} {c c' : Curve} {key : Text} {value : Expr}

/-- What an item with this key and value writes to curves in the frame of `c`. -/
inductive Writes (r : Reader) (c : Curve) (key : Text) (value : Expr) : Write → Prop
  | slot {old new : Attribute} : Named.get? key c.attributes = some old →
    old.reread key (r.unquoted value) = .ok new → Writes r c key value (.slot key new)
  | ties {l : List Tie} : Named.has key c.attributes = false → Key.ofText key = .ties →
    (∀ n, (Model.curve c).TakesAs n →
      Act.Gives (r.addTies value.bracketsRemoved) n () (n.putTies l)) →
    Writes r c key value (.ties l)
  | bounds {l : List Bound} : Named.has key c.attributes = false → Key.ofText key = .constraints →
    (∀ n, (Model.curve c).TakesAs n →
      Act.Gives (r.addConstraints value.bracketsRemoved) n () (n.putBounds l)) →
    Writes r c key value (.bounds l)
  | parent {attr : Text} : Named.has key c.attributes = false → Key.ofText key = .parent attr →
    Writes r c key value .parent
  | parameter {x : Float} : Named.has key c.attributes = false → Key.ofText key ≠ .constraints →
    Key.ofText key ≠ .ties → (∀ attr, Key.ofText key ≠ .parent attr) →
    Number.read? (r.render value) = some x → Named.has key c.parameters = true →
    Writes r c key value (.parameter key x)

theorem Writes.frames {w : Write} (h : r.Writes c key value w) : c.Frames (w.on c) := by
  refine Write.frames_on w fun name new hw => ?_
  cases h with
  | @slot old _ hold hnew =>
    cases hw
    exact ⟨old, hold, (Attribute.trimmed_of_reread hnew).1⟩
  | _ => cases hw

theorem reread_congr {old old' : Attribute} {name s : Text} (h : old'.type = old.type) :
    old'.reread name s = old.reread name s := by
  rw [Attribute.reread, Attribute.reread, h]

/-- Only the frame of a curve matters to what is written. -/
theorem Writes.congr (hframe : c.Frames c') {w : Write} (h : r.Writes c key value w) :
    r.Writes c' key value w := by
  cases h with
  | @slot old new hold hnew =>
    have htype := hframe.types key
    rw [hold, Option.map_some] at htype
    obtain ⟨old', hold', htype⟩ := Option.map_eq_some_iff.1 htype
    exact .slot hold' ((reread_congr htype).trans hnew)
  | ties hhas hkey hputs =>
    exact .ties ((hframe.has_attribute key).trans hhas) hkey fun n hn => hputs n (hframe.takesAs.trans hn)
  | bounds hhas hkey hputs =>
    exact .bounds ((hframe.has_attribute key).trans hhas) hkey
      fun n hn => hputs n (hframe.takesAs.trans hn)
  | parent hhas hkey => exact .parent ((hframe.has_attribute key).trans hhas) hkey
  | parameter hhas hconstraints hties hparent hread hparameter =>
    exact .parameter ((hframe.has_attribute key).trans hhas) hconstraints hties hparent hread
      ((hframe.has_parameter key).trans hparameter)

theorem setAttribute_of_isFixed (hfixed : c.shape.isFixed = true) (name : Text) (value : Attribute) :
    c.setAttribute name value = (c.attributes.replace c.shape.name name value).map
      fun slots => { c with attributes := slots } := by
  rw [Curve.setAttribute]
  cases c.attributes.replace c.shape.name name value with
  | error error => rfl
  | ok slots =>
    change Curve.attributeChanged name { c with attributes := slots } = .ok { c with attributes := slots }
    obtain ⟨shape, parameters, attributes, formula?, ties, bounds⟩ := c
    cases shape with
    | polynomial | chebyshev | userFunction => cases hfixed
    | _ => rfl

/-- What is read is what the item writes. -/
theorem exists_writes (hfixed : c.shape.isFixed = true) {m : Model} {w w' : Work Parents}
    (h : r.Assigns (.curve c) key value w m w') :
    ∃ write, r.Writes c key value write ∧ m = .curve (write.on c) := by
  have hattribute : ¬ (Model.curve c).hasAttribute key = true → Named.has key c.attributes = false :=
    Bool.eq_false_iff.2
  cases h with
  | slot _ hset =>
    obtain ⟨old, new, hold, hnew, hset⟩ := Model.setAttributeText_eq_ok hset
    obtain ⟨c', hcurve, rfl⟩ := Result.map_eq_ok.1 hset
    rw [setAttribute_of_isFixed hfixed] at hcurve
    obtain ⟨slots, hreplace, rfl⟩ := Result.map_eq_ok.1 hcurve
    obtain ⟨-, rfl⟩ := Slots.replace_eq_ok hreplace
    exact ⟨.slot key new, .slot hold hnew, rfl⟩
  | constraints hhas hkey hadd =>
    obtain ⟨l, hstate, hputs⟩ := puts_addConstraints hadd
    exact ⟨.bounds l, .bounds (hattribute hhas) hkey hputs, hstate⟩
  | ties hhas hkey hadd =>
    obtain ⟨l, hstate, hputs⟩ := puts_addTies hadd
    exact ⟨.ties l, .ties (hattribute hhas) hkey hputs, hstate⟩
  | parent hhas hkey => exact ⟨.parent, .parent (hattribute hhas) hkey, rfl⟩
  | @parameter _ x hhas hconstraints hties hparent hread hset =>
    have hset := setAt?_of_setParameter hset
    change (Model.curve c).set? key x = some m at hset
    rw [Model.set?] at hset
    split at hset
    · rename_i hparameter
      cases hset
      exact ⟨.parameter key x,
        .parameter (hattribute hhas) hconstraints hties hparent hread hparameter, rfl⟩
    · cases hset

/-- What the item writes is read, whatever is on its way up. -/
theorem Writes.gives (hfixed : c.shape.isFixed = true) {write : Write}
    (h : r.Writes c key value write) (s : Parents) :
    ∃ s', Act.Gives (r.readAssignment (.curve c) key value) s (.curve (write.on c)) s' := by
  have hself := Model.TakesAs.refl (.curve c)
  rw [readAssignment]
  cases h with
  | @slot old new hold hnew =>
    have hhas : (Model.curve c).hasAttribute key = true := by
      rw [Model.hasAttribute, Model.attributes, Named.has, hold]
      rfl
    rw [if_pos hhas]
    have hreplace : c.attributes.replace c.shape.name key new =
        .ok (Named.set key new c.attributes) := by
      rw [Slots.replace, Slots.get, hold]
      exact if_pos (Attribute.trimmed_of_reread hnew).1
    have hset : (Model.curve c).setAttribute key new = .ok (.curve (Write.on c (.slot key new))) := by
      rw [Model.setAttribute, setAttribute_of_isFixed hfixed, hreplace]
      rfl
    refine ⟨s, Act.gives_ofModel (Result.bind_eq_ok.2 ⟨old, ?_, Result.bind_eq_ok.2 ⟨new, hnew, hset⟩⟩)⟩
    rw [Model.getAttribute, Model.attributes, Slots.get, hold]
    rfl
  | ties hfree hkey hputs =>
    rw [if_neg (by rw [Model.hasAttribute, Model.attributes, hfree]; exact Bool.false_ne_true), hkey]
    exact ⟨s, (hputs _ hself).change⟩
  | bounds hfree hkey hputs =>
    rw [if_neg (by rw [Model.hasAttribute, Model.attributes, hfree]; exact Bool.false_ne_true), hkey]
    exact ⟨s, (hputs _ hself).change⟩
  | @parent attr hfree hkey =>
    rw [if_neg (by rw [Model.hasAttribute, Model.attributes, hfree]; exact Bool.false_ne_true), hkey]
    exact ⟨_, .bind (.bind Act.gives_state Act.gives_put) Act.gives_pure⟩
  | @parameter x hfree hconstraints hties hparent hread hparameter =>
    rw [if_neg (by rw [Model.hasAttribute, Model.attributes, hfree]; exact Bool.false_ne_true)]
    refine ⟨s, ?_⟩
    have hset : (Model.curve c).setParameter key x = .ok (.curve (Write.on c (.parameter key x))) := by
      rw [Model.setParameter, Model.set?, if_pos hparameter]
      rfl
    split
    · exact absurd (by assumption) hconstraints
    · exact absurd (by assumption) hties
    · exact absurd (by assumption) (hparent _)
    · dsimp only
      rw [hread]
      exact Act.gives_ofModel hset

/-- Items whose keys mean different things write to different parts. -/
theorem Writes.apart {key' : Text} {value' : Expr} {write write' : Write}
    (h : r.Writes c key value write) (h' : r.Writes c key' value' write')
    (hne : Key.ofText key ≠ Key.ofText key') : write.Apart write' := by
  have hkeys : key ≠ key' := fun hkey => hne (congrArg Key.ofText hkey)
  cases h with
  | slot =>
    cases h' with
    | slot => exact hkeys
    | _ => trivial
  | parameter =>
    cases h' with
    | parameter => exact hkeys
    | _ => trivial
  | ties _ hkey =>
    cases h' with
    | ties _ hkey' => exact hne (hkey.trans hkey'.symm)
    | _ => trivial
  | bounds _ hkey =>
    cases h' with
    | bounds _ hkey' => exact hne (hkey.trans hkey'.symm)
    | _ => trivial
  | parent => cases h' <;> trivial

/-- What an item of a function writes. -/
def WritesItem (r : Reader) (c : Curve) (item : Expr) (write : Write) : Prop :=
  ∃ key value, Item.assignment? item = some (key, value) ∧ r.Writes c key value write

/-- Reading items makes the changes that they write, each in the frame of the first curve. -/
theorem exists_writes_of_readItems (hfixed : c.shape.isFixed = true) {items : List Expr}
    (hframe : c.Frames c') {m : Model} {w w' : Work Parents}
    (h : Act.Runs (r.readItems (.curve c') items) w m w') :
    ∃ writes, List.Forall₂ (r.WritesItem c) items writes ∧
      m = .curve (writes.foldl Write.on c') := by
  induction items generalizing c' w with
  | nil =>
    obtain ⟨rfl, -⟩ := Act.runs_pure.1 h
    exact ⟨[], .nil, rfl⟩
  | cons item items ih =>
    obtain ⟨key, value, m₁, v, hassign, hassigns, h⟩ := runs_readItems_cons.1 h
    obtain ⟨write, hwrite, rfl⟩ := exists_writes (hframe.shape ▸ hfixed) hassigns
    obtain ⟨writes, hwrites, rfl⟩ := ih (hframe.trans hwrite.frames) h
    exact ⟨write :: writes, .cons ⟨key, value, hassign, hwrite.congr hframe.symm⟩ hwrites, rfl⟩

theorem gives_of_writes (hfixed : c.shape.isFixed = true) {items : List Expr}
    (hframe : c.Frames c') {writes : List Write} (h : List.Forall₂ (r.WritesItem c) items writes)
    (s : Parents) :
    ∃ s', Act.Gives (r.readItems (.curve c') items) s (.curve (writes.foldl Write.on c')) s' := by
  induction h generalizing c' s with
  | nil => exact ⟨s, Act.gives_pure⟩
  | @cons item write items writes hitem _ ih =>
    obtain ⟨key, value, hassign, hwrite⟩ := hitem
    have hwrite := hwrite.congr hframe
    obtain ⟨s₁, hgives⟩ := hwrite.gives (hframe.shape ▸ hfixed) s
    obtain ⟨s₂, hmore⟩ := ih (hframe.trans hwrite.frames) s₁
    refine ⟨s₂, .bind ?_ hmore⟩
    rw [readItem, hassign]
    exact hgives

end Reader

/-! ## Functions -/

namespace Key

/-- The text of a key, other than one for constraints. -/
def text : Key → Text
  | name => "name".toList
  | composite => "composite".toList
  | ties => "ties".toList
  | constraints => "constraints".toList
  | parent attr => '$' :: attr
  | other key => key

theorem text_ofText {key : Text} (h : ofText key ≠ .constraints) : (ofText key).text = key := by
  unfold ofText at h ⊢
  split
  · rename_i hkey
    exact hkey.symm
  · split
    · rename_i hkey
      exact hkey.symm
    · split
      · rename_i hkey
        exact hkey.symm
      · split
        · rename_i hname hcomposite hties hconstraints
          rw [if_neg hname, if_neg hcomposite, if_neg hties, if_pos hconstraints] at h
          exact absurd rfl h
        · split <;> rfl

/-- Only the keys for constraints mean the same without being equal. -/
theorem eq_of_ofText {key key' : Text} (h : ofText key = ofText key') :
    key = key' ∨ ofText key = .constraints := by
  by_cases hkey : ofText key = .constraints
  · exact .inr hkey
  · exact .inl ((text_ofText hkey).symm.trans ((congrArg text h).trans (text_ofText (h ▸ hkey))))

end Key

namespace Item

/-- What the key of an item means. -/
def kind? (item : Expr) : Option Key := (assignment? item).map fun p => .ofText p.1

/-- Whether an item has this key. -/
def hasKey (key : Text) (item : Expr) : Bool := (assignment? item).any (·.1 = key)

/-- Whether an item is a list of constraints. -/
def isConstraints (item : Expr) : Bool := (assignment? item).any fun p => Key.ofText p.1 = .constraints

/-- The items in another order, which keeps the lists of constraints in order and all items of one
key, so also the lists of ties. -/
structure Reordered (items items' : List Expr) : Prop where
  perm : items'.Perm items
  constraints : items'.filter isConstraints = items.filter isConstraints
  keys : ∀ key, items'.filter (hasKey key) = items.filter (hasKey key)

theorem reordered_iff {items items' : List Expr} : Reordered items items' ↔ items'.Perm items ∧
    items'.filter isConstraints = items.filter isConstraints ∧
    ∀ item ∈ items, ∀ p ∈ assignment? item, items'.filter (hasKey p.1) = items.filter (hasKey p.1) := by
  refine ⟨fun h => ⟨h.perm, h.constraints, fun _ _ p _ => h.keys p.1⟩, fun ⟨hperm, hconstraints, hkeys⟩ =>
    ⟨hperm, hconstraints, fun key => ?_⟩⟩
  by_cases hex : ∃ item ∈ items, hasKey key item = true
  · obtain ⟨item, hitem, hkey⟩ := hex
    obtain ⟨p, hp, hkey⟩ := (Option.any_eq_true _ _).1 hkey
    exact of_decide_eq_true hkey ▸ hkeys item hitem p hp
  · have hno : ∀ item ∈ items, ¬ hasKey key item = true := fun item hitem hk => hex ⟨item, hitem, hk⟩
    rw [List.filter_eq_nil_iff.2 hno, List.filter_eq_nil_iff.2]
    exact fun item hitem => hno item (hperm.mem_iff.1 hitem)

instance (items items' : List Expr) : Decidable (Reordered items items') :=
  decidable_of_iff _ reordered_iff.symm

/-- Then all items that mean the same are kept in order. -/
theorem Reordered.kinds {items items' : List Expr} (h : Reordered items items') (key : Key) :
    items'.filter (kind? · = some key) = items.filter (kind? · = some key) := by
  have hsame : ∀ p : Expr → Bool, (∀ item, p item = true ↔ kind? item = some key) →
      items'.filter p = items.filter p →
      items'.filter (kind? · = some key) = items.filter (kind? · = some key) := by
    intro p hp hfilter
    have heq : (fun item => decide (kind? item = some key)) = p :=
      funext fun item => Bool.eq_iff_iff.2 (decide_eq_true_iff.trans (hp item).symm)
    rw [heq, hfilter]
  by_cases hex : ∃ item ∈ items, kind? item = some key
  · obtain ⟨item, -, hitem⟩ := hex
    obtain ⟨⟨s, value⟩, -, hs⟩ := Option.map_eq_some_iff.1 hitem
    by_cases hkey : Key.ofText s = .constraints
    · refine hsame _ (fun item => ?_) h.constraints
      rw [isConstraints, kind?, ← hs, hkey]
      cases assignment? item <;> simp
    · refine hsame (hasKey s) (fun item => ?_) (h.keys s)
      rw [hasKey, kind?, ← hs]
      cases assignment? item with
      | none => simp
      | some p =>
        simp only [Option.any_some, decide_eq_true_eq, Option.map_some, Option.some.injEq]
        exact ⟨fun he => congrArg Key.ofText he,
          fun he => ((Key.eq_of_ofText he.symm).resolve_right hkey).symm⟩
  · -- nothing means this
    have hno : ∀ item ∈ items, ¬ decide (kind? item = some key) = true :=
      fun item hitem hk => hex ⟨item, hitem, of_decide_eq_true hk⟩
    rw [List.filter_eq_nil_iff.2 hno, List.filter_eq_nil_iff.2]
    exact fun item hitem => hno item (h.perm.mem_iff.1 hitem)

end Item

namespace Reader

variable {r : Reader} {items items' : List Expr}

theorem filter_sent? (attr : Text) (items : List Expr) :
    (items.filterMap Item.sent?).filter (fun item => item.attr = attr ∧ ¬ r.isCaught item) =
      (items.filter (Item.kind? · = some (.parent attr))).filterMap Item.sent? := by
  induction items with
  | nil => rfl
  | cons item items ih =>
    rw [List.filter_cons]
    cases hsent : Item.sent? item with
    | none =>
      rw [List.filterMap_cons_none hsent, ih]
      split
      · rw [List.filterMap_cons_none hsent]
      · rfl
    | some it =>
      have hcaught : r.isCaught it = false := by
        rw [isCaught, within_of_sent? hsent]
        rfl
      have hkey : Item.kind? item = some (.parent it.attr) := by
        rw [Item.sent?] at hsent
        rw [Item.kind?]
        split at hsent
        · rename_i key value hassign
          rw [hassign]
          split at hsent
          · rename_i hof
            cases hsent
            exact congrArg some hof
          · cases hsent
        · cases hsent
      rw [List.filterMap_cons_some hsent, List.filter_cons, ih, hcaught, hkey]
      by_cases ha : it.attr = attr
      · simp [ha, hsent]
      · simp [ha]

/-- What is sent up does not depend on the order of items for different attributes. -/
theorem get?_sendAll_reordered (h : Item.Reordered items items') (parents : Parents) (attr : Text) :
    Named.get? attr (r.sendAll parents (items'.filterMap Item.sent?)) =
      Named.get? attr (r.sendAll parents (items.filterMap Item.sent?)) := by
  rw [get?_sendAll fun _ => within_of_mem_filterMap, get?_sendAll fun _ => within_of_mem_filterMap,
    lastSent, lastSent, filter_sent?, filter_sent?, h.kinds]

theorem order_of_writes {c : Curve} (hreordered : Item.Reordered items items') {writes : List Write}
    (h : List.Forall₂ (r.WritesItem c) items writes) (key : Option Key) :
    items'.filter (Item.kind? · = key) = items.filter (Item.kind? · = key) := by
  cases key with
  | some key => exact hreordered.kinds key
  | none =>
    have hno : ∀ item ∈ items, ¬ decide (Item.kind? item = none) = true := by
      intro item hitem hnone
      obtain ⟨write, -, key, value, hassign, -⟩ := Result.exists_of_forall₂ h.flip hitem
      rw [decide_eq_true_eq, Item.kind?, hassign] at hnone
      cases hnone
    rw [List.filter_eq_nil_iff.2 hno, List.filter_eq_nil_iff.2]
    exact fun item hitem => hno item (hreordered.perm.mem_iff.1 hitem)

/-- Items in another order are read as the same curve, and send up the same attributes. -/
theorem exists_runs_readItems_reordered {c : Curve} (hfixed : c.shape.isFixed = true)
    (hunmarked : (Model.curve c).Unmarked) (hreordered : Item.Reordered items items') {m : Model}
    {w w' : Work Parents} (h : Act.Runs (r.readItems (.curve c) items) w m w') :
    ∃ w'', Act.Runs (r.readItems (.curve c) items') w m w'' ∧
      ∀ attr, Named.get? attr w''.state = Named.get? attr w'.state := by
  obtain ⟨writes, hwrites, rfl⟩ := exists_writes_of_readItems hfixed (.refl c) h
  have hcomm : ∀ a a' b b', r.WritesItem c a b → r.WritesItem c a' b' → Item.kind? a ≠ Item.kind? a' →
      ∀ c : Curve, b'.on (b.on c) = b.on (b'.on c) := by
    rintro a a' b b' ⟨key, value, hassign, hwrite⟩ ⟨key', value', hassign', hwrite'⟩ hne
    refine Write.comm (hwrite.apart hwrite' fun hkeys => hne ?_)
    rw [Item.kind?, Item.kind?, hassign, hassign', Option.map_some, Option.map_some, hkeys]
  obtain ⟨writes', hwrites', hfold⟩ :=
    exists_writes_of_reordered hcomm (order_of_writes hreordered hwrites) hwrites
  obtain ⟨s', hgives⟩ := gives_of_writes hfixed (.refl c) hwrites' w.state
  rw [hfold] at hgives
  obtain ⟨journal, hruns⟩ := hgives w.journal
  refine ⟨_, hruns, fun attr => ?_⟩
  rw [state_readItems hunmarked hruns, state_readItems hunmarked h,
    get?_sendAll_reordered hreordered]

/-- A function whose parameters do not depend on an attribute is read as the same function from its
items in every other order that keeps those in order whose keys mean the same, and it sends up the
same attributes. -/
theorem runs_readFunction_reordered {shape : Shape} (hfixed : shape.isFixed = true)
    {head e e' : Expr} {type : Text} (htype : r.typeName? head = some type)
    (hcreate : r.types.create type = .ok (.ofShape shape))
    (hitems : functionItems e.bracketsRemoved = head :: items)
    (hitems' : functionItems e'.bracketsRemoved = head :: items')
    (hreordered : Item.Reordered items items') {m : Model} {w w' : Work Parents}
    (h : Act.Runs (r.readFunction e) w m w') :
    ∃ w'', Act.Runs (r.readFunction e') w m w'' ∧
      ∀ attr, Named.get? attr w''.state = Named.get? attr w'.state := by
  have hunmarked : (Model.curve (.ofShape shape)).Unmarked := by
    have hnames : ∀ name ∈ Named.names shape.attributes, name.head? ≠ some '$' := by
      cases shape <;> decide
    exact hnames
  simp only [readFunction, hitems, htype, hcreate] at h
  simp only [readFunction, hitems', htype, hcreate]
  obtain ⟨_, v, hof, h⟩ := Act.runs_bind.1 h
  obtain ⟨_, v₁, hnote, h⟩ := Act.runs_bind.1 h
  obtain ⟨m₁, v₂, hread, h⟩ := Act.runs_bind.1 h
  obtain ⟨v₃, happly, rfl, rfl⟩ := Act.runs_change.1 h
  obtain ⟨hcreated, -⟩ := Act.runs_ofModel.1 hof
  cases hcreated
  obtain ⟨v₂', hread', hstate⟩ := exists_runs_readItems_reordered hfixed hunmarked hreordered hread
  obtain ⟨hties, -⟩ := Act.runs_applyTies.1 happly
  refine ⟨{ v₂' with journal := v₂'.journal }, ?_, hstate⟩
  refine Act.runs_bind.2 ⟨_, v, hof, Act.runs_bind.2 ⟨(), v₁, hnote, Act.runs_bind.2 ⟨m₁, v₂', hread', ?_⟩⟩⟩
  exact Act.runs_change.2 ⟨⟨v₃.state, v₂'.journal⟩, Act.runs_applyTies.2 ⟨hties, rfl⟩, rfl, rfl⟩

/-- Ties in front of what they refer to, and items of every kind in between. -/
theorem runs_readFunction_reordered_tabulated :
    let r : Reader := {}
    let s := "name=TabulatedFunction,Scaling=3,X=(1,2),$domains=1,constraints=(Scaling<5),Y=(3,4),".toList ++
      "Scaling=4,ties=(Shift=2*Scaling),constraint=(0<Shift<9),ties=(Shift=3*Scaling)".toList
    let s' := "name=TabulatedFunction,ties=(Shift=2*Scaling),constraints=(Scaling<5),Y=(3,4),Scaling=3,".toList ++
      "ties=(Shift=3*Scaling),constraint=(0<Shift<9),Scaling=4,$domains=1,X=(1,2)".toList
    ∃ e e' m w' w'', Expr.parse r.operators r.depth s = .ok e ∧
      Expr.parse r.operators r.depth s' = .ok e' ∧
      Act.Runs (r.readFunction e) { state := [] } m w' ∧
      Act.Runs (r.readFunction e') { state := [] } m w'' ∧
      m.parameter? "Shift".toList = some 12 ∧ m.bounds.length = 2 ∧
      ∀ attr, Named.get? attr w''.state = Named.get? attr w'.state := by
  intro r s s'
  have hcheck : (Expr.parse r.operators r.depth s).toOption.any (fun e =>
      (Expr.parse r.operators r.depth s').toOption.any fun e' =>
        (functionItems e.bracketsRemoved).head?.any fun head =>
          functionItems e.bracketsRemoved = head :: (functionItems e.bracketsRemoved).tail ∧
          functionItems e'.bracketsRemoved = head :: (functionItems e'.bracketsRemoved).tail ∧
          r.typeName? head = some Shape.tabulated.name ∧
          Item.Reordered (functionItems e.bracketsRemoved).tail (functionItems e'.bracketsRemoved).tail ∧
          ((r.readFunction e).run.run { state := [] }).1.toOption.any
            (fun m => m.parameter? "Shift".toList = some 12 ∧ m.bounds.length = 2) = true) = true := by
    decide +kernel
  obtain ⟨e, he, hcheck⟩ := Result.exists_of_any hcheck
  obtain ⟨e', he', hcheck⟩ := Result.exists_of_any hcheck
  obtain ⟨head, -, hcheck⟩ := (Option.any_eq_true _ _).1 hcheck
  obtain ⟨hitems, hitems', htype, hreordered, hread⟩ := of_decide_eq_true hcheck
  obtain ⟨m, hm, hvalues⟩ := Result.exists_of_any hread
  obtain ⟨hshift, hbounds⟩ := of_decide_eq_true hvalues
  obtain ⟨w', hruns⟩ : ∃ w', Act.Runs (r.readFunction e) { state := [] } m w' := ⟨_, Prod.ext hm rfl⟩
  have hfixed : Shape.tabulated.isFixed = true := rfl
  obtain ⟨w'', hruns', hsent⟩ :=
    runs_readFunction_reordered hfixed htype rfl hitems hitems' hreordered hruns
  exact ⟨e, e', m, w', w'', he, he', hruns, hruns', hshift, hbounds, hsent⟩

end Reader
end Lineshape
