import Lineshape.Proofs.Curve.InStep
import Lineshape.Proofs.Reading.Curves
import Lineshape.Proofs.Reading.Factors

/-! # Constraints read back

The bounds of a model are written as a section of its text. Whatever lists of constraints have been
attached to a model that had none, this section is read as an item of a model text, and its list gives
the same bounds in the same order (`Reader.constraints_reread`). Chains come back with the lower number
first, however they were written. -/

namespace Lineshape
set_option autoImplicit false

/-! ## Names of parameters -/

namespace Curve

variable {c c' : Curve} {name : Text}

theorem unbroken_coefficient {degree : Nat} (h : name ∈ coefficientNames degree) : Unbroken name := by
  have hkey : ParameterKey [] name := parameterKey_coefficient h (List.forall_mem_nil _)
  exact .of_segment hkey.segment hkey.nonEmpty

theorem unbroken_of_formula {s : Text} {formula : Expr} (hparse : Expr.ofText s = .ok formula)
    (h : name ∈ formulaParameters formula) : Unbroken name :=
  Expr.unbroken_of_parseLevel hparse name (Text.mem_sortDistinct.1 (List.mem_filter.1 h).1)

theorem Configured.unbroken (h : c.Configured) :
    ∀ name ∈ Named.names c.parameters, Unbroken name := by
  intro name hname
  by_cases huser : c.shape = .userFunction
  · unfold Configured at h
    rw [huser] at h
    obtain ⟨s, -, -, ⟨-, -, hnil⟩ | ⟨-, formula, hparse, -, hnames⟩⟩ := h
    · rw [hnil] at hname
      cases hname
    · exact unbroken_of_formula hparse (hnames ▸ hname)
  · have hkey := h.parameterKey (fun he => absurd he huser) name hname
    exact .of_segment hkey.segment hkey.nonEmpty

theorem unbroken_of_setAttribute {value : Attribute} {attr : Text}
    (h : ∀ name ∈ Named.names c.parameters, Unbroken name) (hset : c.setAttribute attr value = .ok c') :
    ∀ name ∈ Named.names c'.parameters, Unbroken name := by
  obtain ⟨old, -, -, hchanged⟩ := setAttribute_eq_ok hset
  rcases attributeChanged_cases hchanged with ⟨-, -, hdeclare⟩ | ⟨-, -, hcompile⟩ | ⟨rfl, -⟩
  · obtain ⟨-, -, rfl⟩ := declareCoefficients_eq_ok hdeclare
    rw [names_declare]
    exact fun name hname => unbroken_coefficient hname
  · rcases compile_eq_ok hcompile with ⟨-, rfl⟩ | ⟨-, formula, hparse, rfl⟩
    · exact List.forall_mem_nil _
    · intro name hname
      rw [show Named.names _ = _ from names_declare (formulaParameters formula) _] at hname
      exact unbroken_of_formula hparse hname
  · exact h

end Curve

namespace Model

/-- The parameters of a curve have unbroken names. -/
def NamesUnbroken : Model → Prop
  | curve c => ∀ name ∈ Named.names c.parameters, Unbroken name
  | composite _ _ => True

theorem namesUnbroken_keptByChanges : KeptByChanges NamesUnbroken where
  parameter h name hname := h name ((Named.names_set _ _ _).symm ▸ hname)
  tie {m _ _ _ _} h hattach := by
    obtain ⟨-, rfl⟩ := attachTie_eq_ok.1 hattach
    cases m with
    | curve | composite => exact h
  bound {m _ _} h hattach := by
    obtain ⟨-, rfl⟩ := attachBound_eq_ok.1 hattach
    cases m with
    | curve | composite => exact h
  configure := Curve.unbroken_of_setAttribute
  composite _ _ := trivial

theorem namesUnbroken_of_sound {m : Model} (h : m.Sound) : m.Throughout NamesUnbroken := by
  induction h with
  | curve hc _ => exact .curve hc.unbroken
  | composite _ _ _ _ ih => exact .composite trivial ih

/-- Every name of a parameter is spelled with an unbroken one. -/
theorem Throughout.spelling {m : Model} {name : Text} (h : m.Throughout NamesUnbroken)
    (hname : m.hasParameter name = true) : Qualified.Spelling Unbroken name := by
  induction h generalizing name with
  | curve hc =>
    rw [hasParameter_curve, Named.has_iff_mem_names] at hname
    exact .own (hc name hname)
  | composite _ _ ih =>
    obtain ⟨i, inner, mem, hsplit, hmem, hinner⟩ := hasParameter_composite.1 hname
    exact Qualified.spelling_of_split? hsplit (ih mem (List.mem_of_getElem? hmem) hinner)

end Model

/-! ## Lists of constraints -/

namespace Model

/-- Bounds as chains state them, on different parameters of the model. -/
structure Bears (m : Model) (bounds : List Bound) : Prop where
  stated : ∀ b ∈ bounds, m.hasParameter b.parameter = true ∧ b.Stated
  distinct : (bounds.map (·.parameter)).Nodup

theorem Bears.placed {m : Model} {bounds : List Bound} {b : Bound} (h : m.Bears bounds)
    (hhas : m.hasParameter b.parameter = true) (hb : b.Stated) : m.Bears (Bound.placed bounds b) := by
  rw [← Bound.put_eq_placed, Bound.put_eq]
  refine ⟨fun other hother => ?_, nodup_putBy h.distinct⟩
  rcases mem_putBy hother with rfl | hother
  · exact ⟨hhas, hb⟩
  · exact h.stated other hother

theorem Bears.foldl {r : Reader} {m : Model} {pairs : List (Expr × Option Expr)}
    {asked bounds : List Bound} (h : m.Bears bounds) (hasks : List.Forall₂ (r.Asks m) pairs asked) :
    m.Bears (asked.foldl Bound.placed bounds) := by
  induction hasks generalizing bounds with
  | nil => exact h
  | cons hb _ ih =>
    refine ih (h.placed hb.hasParameter ?_)
    obtain ⟨stated, factor, hcreate, -, rfl⟩ := hb
    have hstated := Reader.stated_of_createBound hcreate
    exact ⟨hstated.parameter, hstated.limited, hstated.ordered, hstated.own⟩

/-- A list of constraints is attached to a model, with success. -/
def Constrains (m m' : Model) : Prop :=
  ∃ (r : Reader) (list : Expr), r.kinds = boundKinds ∧
    (m.edit r [] (.addConstraints list)).1 = m' ∧
    (m.edit r [] (.addConstraints list)).2.2 = none

variable {m m' : Model}

/-- Lists of constraints change nothing but the bounds. -/
theorem eq_withBounds_of_constrains (h : Relation.ReflTransGen Constrains m m') :
    m' = m.withBounds m'.bounds := by
  induction h with
  | refl => exact (withBounds_bounds m).symm
  | @tail m₁ m₂ _ hstep ih =>
    obtain ⟨r, list, -, rfl, hsucceeds⟩ := hstep
    obtain ⟨asked, -, hm₂⟩ := exists_asked_of_addConstraints hsucceeds
    rw [hm₂, bounds_withBounds]
    exact (congrArg (withBounds _) ih).trans (withBounds_withBounds m m₁.bounds _)

theorem hasParameter_of_constrains (h : Relation.ReflTransGen Constrains m m') (name : Text) :
    m'.hasParameter name = m.hasParameter name := by
  rw [eq_withBounds_of_constrains h, hasParameter_withBounds]

/-- The bounds that lists of constraints leave in a model that had none. -/
theorem bears_of_constrains (h : Relation.ReflTransGen Constrains m m') (hnone : m.bounds = []) :
    m.Bears m'.bounds := by
  induction h with
  | refl =>
    rw [hnone]
    exact ⟨List.forall_mem_nil _, List.nodup_nil⟩
  | @tail m₁ m₂ hcalls hstep ih =>
    obtain ⟨r, list, -, rfl, hsucceeds⟩ := hstep
    obtain ⟨asked, hasks, hm₂⟩ := exists_asked_of_addConstraints hsucceeds
    rw [eq_withBounds_of_constrains hcalls, Reader.asks_withBounds] at hasks
    rw [hm₂, bounds_withBounds]
    exact ih.foldl hasks

end Model

/-! ## Sections of constraints -/

namespace Reader

variable {r : Reader} {m m' n : Model}

theorem namesUnbroken_of_reached (hr : r.types = .builtin) (h : r.Reached m) :
    m.Throughout Model.NamesUnbroken :=
  throughout_of_reached Model.namesUnbroken_keptByChanges (fun _ => trivial)
    (fun hread => Model.namesUnbroken_of_sound (sound_of_read hr hread)) h

/-- What an edit leaves if its act gives a model. -/
theorem edit_of_gives {e : Edit} (h : Act.Gives (e.act r) m () m') :
    ∃ journal, m.edit r [] e = (m', journal, none) := by
  obtain ⟨journal, h⟩ := h []
  have houtcome := Edit.outcome_eq (r := r) e m
  rw [Act.outcome_eq_none.2 ⟨journal, h⟩] at houtcome
  obtain ⟨hstate, herror⟩ := Prod.ext_iff.1 houtcome
  exact ⟨_, Prod.ext hstate.symm (Prod.ext rfl herror.symm)⟩

/-- The section of bounds on parameters of a model is an item of a model text, and attaching its list
gives the bounds again. -/
theorem exists_section {bounds : List Bound} (hm : m.Throughout Model.NamesUnbroken)
    (h : m.Bears bounds) (hne : bounds ≠ [])
    (hround : ∀ b ∈ bounds, ∀ x ∈ b.numbers, Number.read? (Number.plain x) = some x)
    (hhas : ∀ name, m.hasParameter name = true → n.hasParameter name = true) (hnone : n.bounds = [])
    (separator : Char) :
    ∃ s e list journal, Model.sections separator [] bounds = separator :: s ∧
      Expr.ofText s = .ok e ∧ Item.assignment? e = some ("constraints".toList, list) ∧
      n.edit {} [] (.addConstraints list.bracketsRemoved) = (n.withBounds bounds, journal, none) := by
  obtain ⟨p, htight, hlevels, htext, hread⟩ := exists_bounds
    (fun b hb => ⟨(h.stated b hb).2, hm.spelling (h.stated b hb).1, hround b hb⟩) hne h.distinct
  have hitem : (Phrase.item "constraints".toList p).Tight 0 :=
    Phrase.tight_item (.of_dotted (by decide)) htight (Nat.zero_le 2)
  have hlow : (Phrase.item "constraints".toList p).levels ≤ defaultDepth + 1 :=
    (Phrase.levels_item _ hlevels).trans (by decide)
  obtain ⟨journal, hedit⟩ := edit_of_gives (e := .addConstraints (p.tree ['=']).bracketsRemoved)
    (hread defaultDepth ['='] n (fun b hb => hhas _ (h.stated b hb).1) hnone)
  refine ⟨(Phrase.item "constraints".toList p).text, _, p.tree ['='], journal, ?_,
    Phrase.parseLevel_eq hitem.valid hlow (Phrase.trimmed hitem.valid).trim_eq,
    Phrase.assignment?_item _ _ _, hedit⟩
  rw [sections_bounds (fun b hb => (h.stated b hb).2.own) hne, Phrase.text_item, htext]
  rfl

/-- Lists of constraints are attached to a model without bounds. The section that is written of the
bounds then there is read, and its list gives a model with the same parameters and without bounds the
same bounds in the same order. -/
theorem constraints_reread (hr : r.types = .builtin) (hm : r.Reached m) (hnone : m.bounds = [])
    (hcalls : Relation.ReflTransGen Model.Constrains m m')
    (hround : ∀ b ∈ m'.bounds, ∀ x ∈ b.numbers, Number.read? (Number.plain x) = some x)
    (hhas : ∀ name, m'.hasParameter name = true → n.hasParameter name = true)
    (hnew : n.bounds = []) (separator : Char) :
    ∃ text, Model.sections separator m'.ties m'.bounds =
        Model.sections separator m'.ties [] ++ text ∧
      ((m'.bounds = [] ∧ text = []) ∨ ∃ s e list journal, text = separator :: s ∧
        Expr.ofText s = .ok e ∧ Item.assignment? e = some ("constraints".toList, list) ∧
        n.edit {} [] (.addConstraints list.bracketsRemoved) =
          (n.withBounds m'.bounds, journal, none)) := by
  refine ⟨_, sections_append separator m'.ties m'.bounds, ?_⟩
  by_cases hempty : m'.bounds = []
  · exact .inl ⟨hempty, by rw [hempty]; rfl⟩
  · exact .inr (exists_section (namesUnbroken_of_reached hr hm)
      (Model.bears_of_constrains hcalls hnone) hempty hround
      (fun name hname => hhas name ((Model.hasParameter_of_constrains hcalls name).trans hname)) hnew
      separator)

/-- A name with a blank in it and a number of a member with a sign, limits without end and below zero,
and a factor that is no number. The second list puts its bound in the place of the first one. -/
theorem constraints_reread_replaced : ∃ m m', read {}
      "name=Gaussian;name=UserFunction,Formula=\"h e*x\"".toList = .ok m ∧
    Relation.ReflTransGen Model.Constrains m m' ∧
    m'.bounds.flatMap Bound.items = ["-inf<f0.Height<2".toList, "penalty=NaN".toList,
      "f+1.h e<1000".toList, "penalty=-2.5".toList, "-0<f0.Sigma".toList] ∧
    (∀ b ∈ m'.bounds, ∀ x ∈ b.numbers, Number.read? (Number.plain x) = some x) ∧
    ∃ text, Model.sections ';' m'.ties m'.bounds = Model.sections ';' m'.ties [] ++ text ∧
      ((m'.bounds = [] ∧ text = []) ∨ ∃ s e list journal, text = ';' :: s ∧
        Expr.ofText s = .ok e ∧ Item.assignment? e = some ("constraints".toList, list) ∧
        m.edit {} [] (.addConstraints list.bracketsRemoved) =
          (m.withBounds m'.bounds, journal, none)) := by
  have hcheck : (read {} "name=Gaussian;name=UserFunction,Formula=\"h e*x\"".toList).toOption.any
      (fun m => (Expr.ofText "0<f0.Height,f+1.h e<1e3,penalty=-2.5,f0.Sigma>-0".toList).toOption.any
        fun first => (Expr.ofText "2>=f0.Height>-inf,penalty=nan".toList).toOption.any
          fun second => m.bounds.isEmpty ∧ (m.edit {} [] (.addConstraints first)).2.2.isNone ∧
            (let m₁ := (m.edit {} [] (.addConstraints first)).1
            (m₁.edit {} [] (.addConstraints second)).2.2.isNone ∧
              (m₁.edit {} [] (.addConstraints second)).1.bounds.flatMap Bound.items =
                ["-inf<f0.Height<2".toList, "penalty=NaN".toList, "f+1.h e<1000".toList,
                  "penalty=-2.5".toList, "-0<f0.Sigma".toList] ∧
              ∀ b ∈ (m₁.edit {} [] (.addConstraints second)).1.bounds, ∀ x ∈ b.numbers,
                Number.read? (Number.plain x) = some x)) = true := by
    decide +kernel
  obtain ⟨m, hread, hm⟩ := Result.exists_of_any hcheck
  obtain ⟨first, -, hfirst⟩ := Result.exists_of_any hm
  obtain ⟨second, -, hsecond⟩ := Result.exists_of_any hfirst
  obtain ⟨hempty, hdone, hdone', htexts, hround⟩ := of_decide_eq_true hsecond
  have hnone := List.isEmpty_iff.1 hempty
  have hcalls : Relation.ReflTransGen Model.Constrains m _ :=
    .tail (.tail .refl ⟨{}, first, rfl, rfl, Option.isNone_iff_eq_none.1 hdone⟩)
      ⟨{}, second, rfl, rfl, Option.isNone_iff_eq_none.1 hdone'⟩
  exact ⟨m, _, hread, hcalls, htexts, hround,
    constraints_reread rfl (.read hread) hnone hcalls hround
      (fun name hname => (Model.hasParameter_of_constrains hcalls name).symm.trans hname) hnone ';'⟩

end Reader
end Lineshape
