import Lineshape.Proofs.Curve.InStep
import Lineshape.Proofs.Reading.Reached

/-! # References that resolve

The ties and bounds of a composite refer to parameters of its members, at any depth. In a model that
was read they all resolve, and no edit changes this but a new degree or formula of a member which takes
a parameter away that a composite above it refers to: through a run of edits, failing ones included, all
references of all composites resolve exactly if no edit does this (`Reader.intact_iff_of_edits`). Then
the cost of the model counts every bound at every level. A member that loses such a parameter leaves
the reference to it behind (`Reader.exists_unresolved`). -/

namespace Lineshape
set_option autoImplicit false

namespace Model

/-- What the ties and the bounds of the model itself refer to are parameters of it. -/
structure Resolved (m : Model) : Prop where
  ties : ∀ tie ∈ m.ties, m.hasParameter tie.parameter = true ∧
    ∀ name ∈ tie.formula.variableNames, m.hasParameter name = true
  bounds : ∀ b ∈ m.bounds, m.hasParameter b.parameter = true

theorem Resolved.mono {m m' : Model} (h : m.Resolved) (hties : m'.ties = m.ties)
    (hbounds : m'.bounds = m.bounds) (hoffers : m.Offers m') : m'.Resolved where
  ties tie htie := by
    obtain ⟨htarget, hnames⟩ := h.ties tie (hties ▸ htie)
    exact ⟨hoffers _ htarget, fun name hname => hoffers _ (hnames name hname)⟩
  bounds b hb := hoffers _ (h.bounds b (hbounds ▸ hb))

/-! ## Ties and bounds that are attached -/

section Attach

variable {m m' : Model} {parameter formula : Text} {tie : Tie} {b : Bound}

theorem isComposite_of_attachTie (hattach : m.attachTie parameter formula = .ok (m', tie)) :
    m'.isComposite = m.isComposite := by
  obtain ⟨-, rfl⟩ := attachTie_eq_ok.1 hattach
  cases m with
  | curve | composite => rfl

theorem isComposite_of_attachBound (hattach : m.attachBound b = .ok m') :
    m'.isComposite = m.isComposite := by
  obtain ⟨-, rfl⟩ := attachBound_eq_ok.1 hattach
  cases m with
  | curve | composite => rfl

theorem hasParameter_of_attachTie (h : ∀ b ∈ m.bounds, m.hasParameter b.parameter = true)
    (hattach : m.attachTie parameter formula = .ok (m', tie)) :
    ∀ b ∈ m'.bounds, m'.hasParameter b.parameter = true := by
  obtain ⟨-, rfl⟩ := attachTie_eq_ok.1 hattach
  intro b hb
  rw [bounds_withTies] at hb
  rw [hasParameter_withTies]
  exact h b hb

/-- A bound is attached to a parameter of the model only. -/
theorem hasParameter_of_attachBound
    (h : ∀ other ∈ m.bounds, m.hasParameter other.parameter = true)
    (hattach : m.attachBound b = .ok m') :
    ∀ other ∈ m'.bounds, m'.hasParameter other.parameter = true := by
  obtain ⟨hhas, rfl⟩ := attachBound_eq_ok.1 hattach
  intro other hother
  rw [bounds_withBounds, Bound.put_eq] at hother
  rw [hasParameter_withBounds]
  rcases mem_putBy hother with rfl | hother
  · exact hhas
  · exact h other hother

theorem Resolved.attachTie (h : m.Resolved)
    (hattach : m.attachTie parameter formula = .ok (m', tie)) : m'.Resolved := by
  refine ⟨?_, hasParameter_of_attachTie h.bounds hattach⟩
  obtain ⟨hcreate, rfl⟩ := attachTie_eq_ok.1 hattach
  obtain ⟨rfl, hhas, hnames⟩ := Tie.variableNames_of_create hcreate
  intro other hother
  rw [ties_withTies, Tie.put_eq] at hother
  simp only [hasParameter_withTies]
  rcases mem_putBy hother with rfl | hother
  · exact ⟨hhas, fun name hname => (hnames name hname).2⟩
  · exact h.ties other hother

theorem Resolved.attachBound (h : m.Resolved) (hattach : m.attachBound b = .ok m') :
    m'.Resolved := by
  refine ⟨?_, hasParameter_of_attachBound h.bounds hattach⟩
  obtain ⟨-, rfl⟩ := attachBound_eq_ok.1 hattach
  intro tie htie
  rw [ties_withBounds] at htie
  simp only [hasParameter_withBounds]
  exact h.ties tie htie

end Attach

/-! ## References -/

/-- The names that the ties and the bounds of the model itself refer to. -/
def references (m : Model) : List Text :=
  m.ties.flatMap (fun tie => tie.parameter :: tie.formula.variableNames) ++ m.bounds.map (·.parameter)

theorem resolved_iff {m : Model} :
    m.Resolved ↔ ∀ name ∈ m.references, m.hasParameter name = true := by
  simp only [references, List.forall_mem_append, List.forall_mem_flatMap, List.forall_mem_cons,
    List.forall_mem_map]
  exact ⟨fun h => ⟨h.ties, h.bounds⟩, fun h => ⟨h.1, h.2⟩⟩

/-- The second model refers to a parameter which the first one has, and which it lacks itself. -/
def Drops (m m' : Model) : Prop :=
  ∃ name ∈ m'.references, m.hasParameter name = true ∧ m'.hasParameter name = false

instance (m m' : Model) : Decidable (m.Drops m') := inferInstanceAs (Decidable (∃ _ ∈ _, _))

theorem Offers.not_drops {m m' : Model} (h : m.Offers m') : ¬ m.Drops m' := by
  rintro ⟨name, -, hhas, hnot⟩
  rw [h name hhas] at hnot
  cases hnot

theorem Resolved.not_drops {m m' : Model} (h : m'.Resolved) : ¬ m.Drops m' := by
  rintro ⟨name, hname, -, hnot⟩
  rw [resolved_iff.1 h name hname] at hnot
  cases hnot

theorem Resolved.of_not_drops {m m' : Model} (h : m.Resolved)
    (hreferences : m'.references = m.references) (hdrops : ¬ m.Drops m') : m'.Resolved := by
  refine resolved_iff.2 fun name hname => ?_
  have hhas := resolved_iff.1 h name (hreferences ▸ hname)
  exact (Bool.eq_false_or_eq_true _).resolve_right fun hnot => hdrops ⟨name, hname, hhas, hnot⟩

/-! ## Intact models -/

/-- The references of the model resolve if it is a composite, and its bounds stand on parameters in
any case. -/
structure Intact (m : Model) : Prop where
  composite : m.isComposite = true → m.Resolved
  bounds : ∀ b ∈ m.bounds, m.hasParameter b.parameter = true

theorem hasParameter_declare (c : Curve) (names : List Text) (formula? : Option Expr) (name : Text) :
    (curve { c.declare names with formula? }).hasParameter name = true ↔ name ∈ names := by
  rw [hasParameter_curve, Named.has_iff_mem_names]
  change name ∈ Named.names (c.declare names).parameters ↔ name ∈ names
  rw [Curve.names_declare]

theorem Resolved.intact {m : Model} (h : m.Resolved) : m.Intact := ⟨fun _ => h, h.bounds⟩

theorem Intact.attachTie {m m' : Model} {parameter formula : Text} {tie : Tie} (h : m.Intact)
    (hattach : m.attachTie parameter formula = .ok (m', tie)) : m'.Intact where
  composite hc := (h.composite (isComposite_of_attachTie hattach ▸ hc)).attachTie hattach
  bounds := hasParameter_of_attachTie h.bounds hattach

theorem Intact.attachBound {m m' : Model} {b : Bound} (h : m.Intact)
    (hattach : m.attachBound b = .ok m') : m'.Intact where
  composite hc := (h.composite (isComposite_of_attachBound hattach ▸ hc)).attachBound hattach
  bounds := hasParameter_of_attachBound h.bounds hattach

/-- A curve that declares its parameters anew drops the bounds on those that go. -/
theorem Intact.setAttribute {c c' : Curve} {name : Text} {value : Attribute}
    (h : (curve c).Intact) (hset : c.setAttribute name value = .ok c') : (curve c').Intact := by
  obtain ⟨attributes, -, hchanged⟩ := Result.bind_eq_ok.1 hset
  refine ⟨nofun, ?_⟩
  rcases Curve.attributeChanged_eq_ok hchanged with rfl | ⟨names, formula?, rfl⟩
  · exact h.bounds
  · exact fun b hb => (hasParameter_declare _ _ _ _).2 (Curve.mem_of_declare.2 b hb)

theorem Intact.keptByChanges : KeptByChanges Intact where
  parameter {c name value} h := by
    refine ⟨nofun, fun b hb => ?_⟩
    have hhas := h.bounds b hb
    rw [hasParameter_curve, Named.has_iff_mem_names] at hhas ⊢
    rwa [Named.names_set]
  tie := Intact.attachTie
  bound := Intact.attachBound
  configure := Intact.setAttribute
  composite {c attributes members members'} h hoffers := by
    have hresolved : (Model.composite { c with attributes } members').Resolved :=
      (h.composite rfl).mono rfl rfl hoffers
    exact hresolved.intact

/-! ## Costs -/

/-- The costs of the bounds of the model itself, one for each; a missing parameter counts as zero. -/
def costs (m : Model) : List Float :=
  m.bounds.map fun b => b.check ((m.parameter? b.parameter).getD 0)

mutual
/-- The cost of all bounds at every level, with none left out. -/
def fullPenalty : Model → Float
  | curve c => total (curve c).costs
  | composite c members => total (composite c members).costs + total (fullPenaltiesOf members)
/-- The costs of several members, with no bound left out. -/
def fullPenaltiesOf : List (Member Model) → List Float
  | [] => []
  | ⟨_, m⟩ :: more => m.fullPenalty :: fullPenaltiesOf more
end

theorem Intact.ownPenalty_eq {m : Model} (h : m.Intact) : m.ownPenalty = total m.costs := by
  have hvalue : ∀ b ∈ m.bounds, (m.parameter? b.parameter).map b.check =
      some (b.check ((m.parameter? b.parameter).getD 0)) := by
    intro b hb
    have hhas := h.bounds b hb
    rw [hasParameter_eq] at hhas
    obtain ⟨x, hx⟩ := Option.isSome_iff_exists.1 hhas
    rw [hx]
    rfl
  rw [ownPenalty, List.filterMap_congr hvalue, List.filterMap_eq_map', costs]

theorem penaltiesOf_eq {members : List (Member Model)}
    (h : ∀ mem ∈ members, mem.model.penalty = mem.model.fullPenalty) :
    penaltiesOf members = fullPenaltiesOf members := by
  induction members with
  | nil => rfl
  | cons mem more ih =>
    obtain ⟨hfirst, hmore⟩ := List.forall_mem_cons.1 h
    rw [penaltiesOf, fullPenaltiesOf, hfirst, ih hmore]

/-- The cost of a model that is intact at every level leaves no bound out. -/
theorem Throughout.penalty_eq {m : Model} (h : m.Throughout Intact) :
    m.penalty = m.fullPenalty := by
  induction h with
  | curve h => rw [penalty, fullPenalty, h.ownPenalty_eq]
  | composite h _ ih => rw [penalty, fullPenalty, h.ownPenalty_eq, penaltiesOf_eq ih]

/-! ## Members -/

theorem offers_setAttribute {m m' : Model} {name : Text} {value : Attribute}
    (hname : name ≠ "n".toList ∧ name ≠ "Formula".toList)
    (h : m.setAttribute name value = .ok m') : m.Offers m' := by
  cases m with
  | curve c =>
    obtain ⟨c', hc, rfl⟩ := Result.map_eq_ok.1 h
    obtain ⟨attributes, -, hc⟩ := Result.bind_eq_ok.1 hc
    have hkept : c' = { c with attributes } := by
      rw [Curve.attributeChanged.eq_def] at hc
      split at hc
      · rw [if_neg hname.1] at hc
        exact (Except.ok.inj hc).symm
      · rw [if_neg hname.1] at hc
        exact (Except.ok.inj hc).symm
      · rw [if_neg hname.2] at hc
        exact (Except.ok.inj hc).symm
      · exact (Except.ok.inj hc).symm
    subst hkept
    exact fun _ hhas => hhas
  | composite c members =>
    obtain ⟨attributes, -, hc⟩ := Result.bind_eq_ok.1 h
    cases hc
    exact fun _ hhas => hhas

/-- An edit that gives no value to the degree or the formula takes no parameter away. -/
theorem offers_keeps {m : Model} {e : Edit} (he : e.redeclares = false) : e.Keeps m.Offers where
  parameter h hset name hhas := offers_setAt? hset name (h name hhas)
  tie h hattach name hhas := by
    obtain ⟨-, rfl⟩ := attachTie_eq_ok.1 hattach
    rw [hasParameter_withTies]
    exact h name hhas
  bound h hattach name hhas := by
    obtain ⟨-, rfl⟩ := attachBound_eq_ok.1 hattach
    rw [hasParameter_withBounds]
    exact h name hhas
  setLocal h hset name hhas := offers_setLocal hset name (h name hhas)
  configure hattribute h hset name hhas :=
    offers_setAttribute (Edit.ne_of_redeclares hattribute he) hset name (h name hhas)
  member _ h name hhas := offers_addMember _ _ name (h name hhas)

theorem offers_updateAt {m member new : Model} {path : List Nat}
    (hmember : m.memberAt? path = some member) (h : member.Offers new) :
    m.Offers (m.updateAt (fun _ => new) path) := by
  induction path generalizing m with
  | nil =>
    cases hmember
    cases member with
    | curve | composite => exact h
  | cons i path ih =>
    obtain ⟨mem, hmem, hbelow⟩ := Option.bind_eq_some_iff.1 hmember
    cases m with
    | curve => cases hmem
    | composite c members =>
      change members[i]? = some mem at hmem
      rw [updateAt_member _ _ hmem]
      intro name hhas
      obtain ⟨j, inner, other, hs, hother, hinner⟩ := hasParameter_composite.1 hhas
      refine hasParameter_composite.2 ?_
      by_cases hij : i = j
      · subst hij
        cases hmem.symm.trans hother
        exact ⟨i, inner, _, hs, List.getElem?_set_self (List.getElem?_eq_some_iff.1 hmem).1,
          ih hbelow inner hinner⟩
      · exact ⟨j, inner, other, hs, by rw [List.getElem?_set_ne hij, hother], hinner⟩

/-- A composite above an address drops a parameter that it refers to. -/
def DropsAbove (m : Model) (path : List Nat) (m' : Model) : Prop :=
  ∃ k < path.length, ∃ owner ∈ m.memberAt? (path.take k), ∃ owner' ∈ m'.memberAt? (path.take k),
    owner'.isComposite = true ∧ owner.Drops owner'

instance (m : Model) (path : List Nat) (m' : Model) : Decidable (m.DropsAbove path m') :=
  inferInstanceAs (Decidable (∃ _ < _, _))

theorem Throughout.not_dropsAbove {m m' : Model} {path : List Nat} (h : m'.Throughout Intact) :
    ¬ m.DropsAbove path m' := by
  rintro ⟨k, -, owner, -, owner', howner', hc, hdrops⟩
  exact ((h.memberAt? howner').own.composite hc).not_drops hdrops

/-- Nothing is dropped above a member that keeps its parameters. -/
theorem not_dropsAbove_of_offers {m member new : Model} {path : List Nat}
    (hmember : m.memberAt? path = some member) (h : member.Offers new) :
    ¬ m.DropsAbove path (m.updateAt (fun _ => new) path) := by
  induction path generalizing m with
  | nil =>
    rintro ⟨k, hk, -⟩
    cases hk
  | cons i path ih =>
    rintro ⟨k, hk, owner, howner, owner', howner', hc, hdrops⟩
    obtain ⟨mem, hmem, hbelow⟩ := Option.bind_eq_some_iff.1 hmember
    cases k with
    | zero =>
      cases howner
      cases howner'
      exact (offers_updateAt hmember h).not_drops hdrops
    | succ k =>
      cases m with
      | curve => cases hmem
      | composite c members =>
        change members[i]? = some mem at hmem
        rw [updateAt_member _ _ hmem] at howner'
        obtain ⟨mem', hmem', howner'⟩ := Option.bind_eq_some_iff.1 howner'
        obtain ⟨other, hother, howner⟩ := Option.bind_eq_some_iff.1 howner
        cases hmem.symm.trans hother
        cases (List.getElem?_set_self (List.getElem?_eq_some_iff.1 hmem).1).symm.trans hmem'
        exact ih hbelow ⟨k, Nat.lt_of_succ_lt_succ hk, owner, howner, owner', howner', hc, hdrops⟩

/-- A member with another one in its place leaves the model intact if nothing is dropped above. -/
theorem intact_updateAt {m member new : Model} {path : List Nat} (h : m.Throughout Intact)
    (hmember : m.memberAt? path = some member) (hnew : new.Throughout Intact)
    (hdrops : ¬ m.DropsAbove path (m.updateAt (fun _ => new) path)) :
    (m.updateAt (fun _ => new) path).Throughout Intact := by
  induction path generalizing m with
  | nil =>
    cases m with
    | curve | composite => exact hnew
  | cons i path ih =>
    obtain ⟨mem, hmem, hbelow⟩ := Option.bind_eq_some_iff.1 hmember
    cases h with
    | curve => cases hmem
    | @composite c members hc hm =>
      change members[i]? = some mem at hmem
      rw [updateAt_member _ _ hmem] at hdrops ⊢
      refine .set (Resolved.intact ?_) hm (ih (hm mem (List.mem_of_getElem? hmem)) hbelow ?_)
      · refine (hc.composite rfl).of_not_drops rfl fun hown => hdrops ?_
        exact ⟨0, Nat.succ_pos _, _, rfl, _, rfl, rfl, hown⟩
      · rintro ⟨k, hk, owner, howner, owner', howner', hbelow⟩
        refine hdrops ⟨k + 1, Nat.succ_lt_succ hk, owner, ?_, owner', ?_, hbelow⟩
        · exact Option.bind_eq_some_iff.2 ⟨mem, hmem, howner⟩
        · exact Option.bind_eq_some_iff.2
            ⟨_, List.getElem?_set_self (List.getElem?_eq_some_iff.1 hmem).1, howner'⟩

theorem edits_append (r : Reader) (m : Model) (front : List (List Nat × Edit))
    (change : List Nat × Edit) :
    m.edits r (front ++ [change]) = ((m.edits r front).edit r change.1 change.2).1 := by
  rw [edits, edits, List.foldl_append]
  rfl

end Model

namespace Reader

variable {r : Reader} {m : Model}

/-- A step of reading keeps what every edit keeps that adds no member. -/
theorem Step.keeps {P : Model → Prop} (hP : ∀ e : Edit, e.member? = none → e.Keeps P)
    {m m' : Model} (hm : P m) (h : r.Step m m') : P m' := by
  cases h with
  | @configure name s hset =>
    obtain ⟨old, value, -, -, hset⟩ := Model.setAttributeText_eq_ok hset
    exact (hP (.setAttributeText name s) rfl).configure rfl hm hset
  | parameter hset => exact (hP .applyTies rfl).parameter hm hset
  | tie hattach => exact (hP .applyTies rfl).tie hm hattach
  | bound _ hattach => exact (hP .applyTies rfl).bound hm hattach

theorem intact_of_create {name : Text} (h : Catalogue.builtin.create name = .ok m) :
    m.Throughout Model.Intact := by
  obtain ⟨hties, hbounds⟩ := Catalogue.create_builtin_unattached h
  have hintact : m.Intact := Model.Resolved.intact ⟨by simp [hties], by simp [hbounds]⟩
  rcases Catalogue.create_builtin h with ⟨shape, rfl⟩ | ⟨base, -, rfl⟩
  · exact .curve hintact
  · exact .composite hintact nofun

theorem invariant_intact (hr : r.types = .builtin) : r.Invariant (Model.Throughout Model.Intact) where
  create h := intact_of_create (hr ▸ h)
  step hm hstep := hstep.keeps (fun e he => Model.Intact.keptByChanges.keeps (by simp [he])) hm
  member hm hnew := Model.Intact.keptByChanges.addMember hm hnew
  setLocal hm hset := Model.Intact.keptByChanges.setLocal hm hset

theorem intact_of_read (hr : r.types = .builtin) {s : Text} (h : r.read s = .ok m) :
    m.Throughout Model.Intact :=
  holds_of_read (hr ▸ Catalogue.unmarked_builtin) (invariant_intact hr) h

/-- One edit leaves a model intact, unless it gives a member another degree or formula and a composite
above the member drops a parameter by that. -/
theorem intact_edit {path : List Nat} {e : Edit} (h : m.Throughout Model.Intact)
    (hnew : ∀ new, e.member? = some new → new.Throughout Model.Intact)
    (hdrops : e.redeclares = true → ¬ m.DropsAbove path (m.edit r path e).1) :
    (m.edit r path e).1.Throughout Model.Intact := by
  rcases Edit.edit_eq r e m path with heq | ⟨member, new, hmember, hkeeps, heq⟩
  · rwa [heq]
  · rw [heq] at hdrops ⊢
    refine Model.intact_updateAt h hmember
      (hkeeps _ (Model.Intact.keptByChanges.keeps hnew) (h.memberAt? hmember)) ?_
    cases he : e.redeclares with
    | true => exact hdrops he
    | false =>
      exact Model.not_dropsAbove_of_offers hmember
        (hkeeps _ (Model.offers_keeps he) fun _ hhas => hhas)

/-- A model that was read is edited, itself and its members at any depth, with success or without. All
references of all its composites resolve all along, and its cost counts every bound, exactly if no
edit of the degree or the formula of a member takes a parameter away that a composite above the member
refers to. -/
theorem intact_iff_of_edits (hr : r.types = .builtin) {s : Text} (h : r.read s = .ok m)
    (changes : List (List Nat × Edit))
    (hnew : ∀ change ∈ changes, ∀ new, change.2.member? = some new → new.Throughout Model.Intact) :
    (∀ k, (m.edits r (changes.take k)).Throughout Model.Intact ∧
      (m.edits r (changes.take k)).penalty = (m.edits r (changes.take k)).fullPenalty) ↔
    ∀ k change, changes[k]? = some change → change.2.redeclares = true →
      ¬ (m.edits r (changes.take k)).DropsAbove change.1 (m.edits r (changes.take (k + 1))) := by
  constructor
  · intro hall k change _ _
    exact (hall (k + 1)).1.not_dropsAbove
  · intro hspared k
    suffices hintact : (m.edits r (changes.take k)).Throughout Model.Intact from
      ⟨hintact, hintact.penalty_eq⟩
    -- the prefixes of the run, each from the one before it
    induction k with
    | zero => exact intact_of_read hr h
    | succ k ih =>
      cases hchange : changes[k]? with
      | none =>
        rwa [List.take_add_one, hchange, Option.toList_none, List.append_nil]
      | some change =>
        have hstep := hspared k change hchange
        rw [List.take_add_one, hchange, Option.toList_some, Model.edits_append] at hstep ⊢
        exact intact_edit ih (hnew change (List.mem_of_getElem? hchange)) hstep

/-- The degree of a member of a member is raised, is refused, and goes down again as far as nothing is
referred to; another member loses a coefficient that no bound stands on. -/
theorem intact_iff_of_edits_degrees :
    let s := "(name=Polynomial,n=1;name=FlatBackground;ties=(f0.A0=f1.A0));".toList ++
      "name=Chebyshev,n=1;constraints=(f0.f0.A1<5,f1.A0<3)".toList
    let degree := fun path s => (path, Edit.setAttributeText "n".toList s)
    let changes := [degree [0, 0] "3".toList, degree [0, 0] "-1".toList, degree [0, 0] "2".toList,
      ([0], .tie "f0.A1".toList "f0.A2+f1.A0".toList), degree [1] "0".toList]
    ∃ m, read {} s = .ok m ∧
      (∀ k < 5, ∀ change ∈ changes[k]?, change.2.redeclares = true →
        ¬ (m.edits {} (changes.take k)).DropsAbove change.1 (m.edits {} (changes.take (k + 1)))) ∧
      (∀ k < 5, ∀ change ∈ changes[k]?,
        ((m.edits {} (changes.take k)).edit {} change.1 change.2).2.2.isSome = decide (k = 1)) ∧
      (m.edits {} changes).Throughout Model.Intact ∧
      (m.edits {} changes).penalty = (m.edits {} changes).fullPenalty := by
  intro s degree changes
  have hcheck : (read {} s).toOption.any (fun m =>
      (∀ k < 5, ∀ change ∈ changes[k]?, change.2.redeclares = true →
        ¬ (m.edits {} (changes.take k)).DropsAbove change.1 (m.edits {} (changes.take (k + 1)))) ∧
      ∀ k < 5, ∀ change ∈ changes[k]?, ((m.edits {} (changes.take k)).edit {} change.1
        change.2).2.2.isSome = decide (k = 1)) = true := by
    decide +kernel
  have hnone : ∀ change ∈ changes, change.2.member?.isNone = true := by decide
  obtain ⟨m, hread, hm⟩ := Result.exists_of_any hcheck
  obtain ⟨hspared, hrefused⟩ := of_decide_eq_true hm
  have hall := (intact_iff_of_edits (r := {}) rfl hread changes fun change hchange new hmember => by
    have hno := hnone change hchange
    rw [hmember] at hno
    cases hno).2 fun k change hk => hspared k (List.getElem?_eq_some_iff.1 hk).1 change hk
  exact ⟨m, hread, hspared, hrefused, hall 5⟩

/-- A polynomial that is made shorter leaves a bound on its last coefficient behind, which then costs
nothing. -/
theorem exists_unresolved : ∃ c members,
    read {} "name=Polynomial,n=1,A1=7;name=FlatBackground;constraints=(f0.A1<5)".toList =
        .ok (.composite c members) ∧
      let m := Model.composite c members
      let m' := m.edits {} [([0], .setAttributeText "n".toList "0".toList)]
      m'.bounds.map (·.parameter) = ["f0.A1".toList] ∧ m'.hasParameter "f0.A1".toList = false ∧
        m.penalty = 4000 ∧ m'.penalty = -0.0 := by
  have hcheck : (read {} "name=Polynomial,n=1,A1=7;name=FlatBackground;constraints=(f0.A1<5)".toList).toOption.any
      (fun m => m.isComposite = true ∧
        let m' := m.edits {} [([0], .setAttributeText "n".toList "0".toList)]
        m'.bounds.map (·.parameter) = ["f0.A1".toList] ∧ m'.hasParameter "f0.A1".toList = false ∧
          m.penalty = 4000 ∧ m'.penalty = -0.0) = true := by
    decide +kernel
  obtain ⟨m, hread, hm⟩ := Result.exists_of_any hcheck
  obtain ⟨hc, hm⟩ := of_decide_eq_true hm
  cases m with
  | curve => cases hc
  | composite c members => exact ⟨c, members, hread, hm⟩

end Reader
end Lineshape
