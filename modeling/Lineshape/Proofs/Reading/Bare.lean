import Lineshape.Proofs.Reading.Outline

/-! # Texts that are read

A bare model has no ties, no bounds and no formula, and keeps nothing for its members that a new member
does not have. Its text is always read (`Reader.exists_limit_of_bare`), whatever its numbers are, and
also where a member is taken for a header. Of every model whose strings hide their separators, what is
read has the skeleton just if no member is taken for a header (`Reader.skeleton_of_reread`). -/

namespace Lineshape
set_option autoImplicit false

open Reader (builtin)

/-! ## Bare models -/

namespace Model

variable {m : Model} {c : Composite} {members : List (Member Model)}

/-- Whether the model is a function with a formula of its own. -/
def isUserFunction : Model → Bool
  | curve c => c.shape = .userFunction
  | composite .. => false

/-- The model itself has no ties, no bounds and no formula, and keeps for its members what it keeps for
new ones. -/
structure Bare (m : Model) : Prop where
  ties : m.ties = []
  bounds : m.bounds = []
  formula : m.isUserFunction = false
  locals : ∀ mem ∈ m.members, mem.locals.all (Slots.unchanged m.localDefaults) = true

theorem bare_iff : m.Bare ↔ m.ties = [] ∧ m.bounds = [] ∧ m.isUserFunction = false ∧
    ∀ mem ∈ m.members, mem.locals.all (Slots.unchanged m.localDefaults) = true :=
  ⟨fun h => ⟨h.ties, h.bounds, h.formula, h.locals⟩, fun h => ⟨h.1, h.2.1, h.2.2.1, h.2.2.2⟩⟩

instance (m : Model) : Decidable m.Bare := decidable_of_iff _ bare_iff.symm

theorem Bare.changed_eq_nil (h : m.Bare) {mem : Member Model} (hmem : mem ∈ m.members) :
    mem.locals.filter (!Slots.unchanged m.localDefaults ·) = [] := by
  refine List.filter_eq_nil_iff.2 fun slot hslot => ?_
  rw [List.all_eq_true.1 (h.locals mem hmem) slot hslot]
  exact Bool.false_ne_true

/-- No ties at any level. -/
def Untied (m : Model) : Prop := m.Throughout fun m => m.ties = []

theorem Untied.applyTies_eq (h : m.Untied) : m.applyTies = (m, none) := by
  refine applyTies_of_holdsAt fun e he => ?_
  obtain ⟨path, tie⟩ := e
  obtain ⟨owner, howner, htie⟩ := mem_schedule.1 he
  rw [(Throughout.memberAt? h howner).own] at htie
  cases htie

end Model

namespace Curve

variable {c : Curve}

/-- Formulas are the only strings among the attributes of curves. -/
theorem Configured.hasQuote_eq_false (h : c.Configured) (hformula : (Model.curve c).isUserFunction = false) :
    ∀ slot ∈ c.attributes, slot.2.hasQuote = false := by
  have hshape : c.shape ≠ .userFunction := of_decide_eq_false hformula
  unfold Configured at h
  split at h
  · obtain ⟨n, -, ha, -⟩ := h
    rw [ha]
    exact List.forall_mem_singleton.2 rfl
  · obtain ⟨n, start, stop, -, ha, -⟩ := h
    rw [ha]
    simp [Attribute.hasQuote]
  · contradiction
  · obtain ⟨xs, ys, ha, -⟩ := h
    rw [ha]
    simp [Attribute.hasQuote]
  · rw [h.1]
    exact List.forall_mem_nil _

end Curve

/-- A string without quotes hides its separators between quotes. -/
theorem Attribute.hidden_of_hasQuote {value : Attribute} (h : value.hasQuote = false) : value.Hidden := by
  cases value with
  | string s =>
    have hfree : '"' ∉ s := fun hmem => Bool.false_ne_true (h.symm.trans (List.contains_iff_mem.2 hmem))
    exact ⟨.quoted hfree rfl, .quoted hfree rfl⟩
  | int n | double x | bool b | vector xs => trivial

namespace Model

variable {c : Composite}

/-- What a composite keeps for a member has no quotes if nothing of it is written. -/
theorem hasQuote_of_changed_eq_nil {locals : Slots} (hc : c.Configured) (hkeeps : c.Keeps locals)
    (hnone : locals.filter (!Slots.unchanged c.localDefaults ·) = []) :
    ∀ slot ∈ locals, slot.2.hasQuote = false := by
  rcases hkeeps.changed with ⟨-, hlocals⟩ | ⟨default, t, -, -, hlocals, hall⟩
  · obtain ⟨base, hbase, -, -, hdefaults⟩ := hc.type
    rw [hlocals, hdefaults]
    rcases List.mem_cons.1 hbase with rfl | hbase
    · nofun
    · rw [List.mem_singleton.1 hbase]
      decide
  · rw [hall, hlocals] at hnone
    cases hnone

/-- The strings of bare models hide their separators. -/
theorem Sound.hides_of_bare {m : Model} (h : m.Sound) (hb : m.Throughout Bare) : m.Throughout Hides := by
  induction h with
  | curve hc _ =>
    exact .curve ⟨fun slot hslot => Attribute.hidden_of_hasQuote
      (hc.hasQuote_eq_false hb.own.formula slot hslot), nofun⟩
  | @composite c members hc hm hk _ ih =>
    cases hb with
    | composite hown hb =>
      refine .composite ⟨?_, fun mem hmem slot hslot => ?_⟩ fun mem hmem => ih mem hmem (hb mem hmem)
      · obtain ⟨b, hattributes⟩ := hc.attributes
        rw [attributes, hattributes]
        exact List.forall_mem_singleton.2 trivial
      · exact Attribute.hidden_of_hasQuote
          (hasQuote_of_changed_eq_nil hc (hk mem hmem) (hown.changed_eq_nil hmem) slot hslot)

end Model

namespace Reader

variable {c : Composite} {members : List (Member Model)} {m new : Model} {p : Phrase}

/-! ## Members -/

/-- A member that nothing is written behind is added to any composite as a new member. -/
theorem Tells.adds_new {defaults : Slots} {mem : Member Model} (h : Tells defaults mem new p)
    (hnone : mem.locals.filter (!Slots.unchanged defaults ·) = []) (c : Composite) (op : Text) :
    AddsMember c ⟨c.localDefaults, new⟩ (Part.ofExpr (p.tree op)) where
  member := h.member op
  gives depth front s := by
    obtain ⟨sent, hsent, hadds⟩ := h.adds
    rw [hnone] at hsent
    cases hsent
    exact hadds depth op _ _ s s (.bind (.change (Act.gives_addMember new)) Act.gives_pure)

/-- The model can be written as a member that nothing is written behind, and what is read has no ties. -/
def Writable (m : Model) : Prop := ∀ defaults locals : Slots,
  locals.filter (!Slots.unchanged defaults ·) = [] →
    ∃ new p, Tells defaults ⟨locals, m⟩ new p ∧ new.Untied

theorem completes_bare {start : Model} (h : m.Bare) (hstart : start.Untied) :
    Completes [] m start start := .nil h.ties h.bounds hstart.applyTies_eq

theorem userParameters_bare (h : m.Bare) : m.userParameters = [] := by
  cases m with
  | curve c => exact if_neg (of_decide_eq_false h.formula)
  | composite c members => rfl

theorem writable_curve {c' : Curve} (h : (Model.curve c').Sound) (hb : (Model.curve c').Bare) :
    Writable (.curve c') := by
  intro defaults locals hnone
  have huntied : (Model.curve { c'.renumbered with ties := [], bounds := [] }).Untied := .curve rfl
  cases h with
  | curve hc _ =>
    have hnames : ∀ name ∈ (Model.curve c').userParameters, Text.isParameterKey name = true := by
      rw [userParameters_bare hb]
      nofun
    obtain ⟨p, hp⟩ := exists_member_of_curve hc (hc.hasQuote_eq_false hb.formula) hnames
      (completes_bare hb huntied) (hnone ▸ Trails.nil)
    exact ⟨_, p, hp, huntied⟩

/-- A composite without members is written as its header in brackets, and read as a function. -/
theorem writable_hollow (h : (Model.composite c []).Sound) : Writable (.composite c []) := by
  intro defaults locals hnone
  have hc : c.Configured := h.configured
  obtain ⟨p, hp⟩ := exists_header hc
  have hpart : ∀ op, Part.ofExpr ((Phrase.closed p).tree op) = .function (p.tree op) := by
    intro op
    obtain ⟨o, items, hitems⟩ := hp.items op
    have htype : (builtin 0).functionType? (p.tree op) = some c.name :=
      functionType?_of_functionItems hitems (.inr rfl) (create_composite hc).2.1
    rw [Phrase.tree, ofExpr_of_functionType? htype, (isNode_of_functionItems hitems).bracketsRemoved_eq]
  refine ⟨.composite { c with ties := [], bounds := [] } [], .closed p,
    ⟨⟨hp.closed hc, .inl rfl⟩, ?_, fun h => absurd h.symm Bool.false_ne_true, fun op => ?_, [], ?_, ?_⟩,
    .composite rfl (List.forall_mem_nil _)⟩
  · rw [Model.memberText_composite, hnone, h.text_hollow, Phrase.text, hp.text]
    exact (List.append_nil _).symm
  · rw [hpart]
    rfl
  · rw [hnone]
    exact .nil
  · intro depth op m m' s s' hadopt
    rw [hpart, addPart]
    exact .bind (hp.gives_readFunction hc depth op []).on hadopt

theorem exists_tells_members {defaults : Slots} (hmembers : ∀ mem ∈ members, Writable mem.model)
    (hlocals : ∀ mem ∈ members, mem.locals.filter (!Slots.unchanged defaults ·) = []) (c : Composite) :
    ∃ news phrases, TellsMembers defaults c members news phrases ∧ ∀ new ∈ news, new.model.Untied := by
  induction members with
  | nil => exact ⟨[], [], .nil, nofun⟩
  | cons mem members ih =>
    obtain ⟨hfirst, hmembers⟩ := List.forall_mem_cons.1 hmembers
    obtain ⟨hnone, hlocals⟩ := List.forall_mem_cons.1 hlocals
    obtain ⟨new, p, hp, hnew⟩ := hfirst defaults mem.locals hnone
    obtain ⟨news, phrases, hphrases, hnews⟩ := ih hmembers hlocals
    exact ⟨⟨c.localDefaults, new⟩ :: news, p :: phrases, .cons hp (hp.adds_new hnone c) hphrases,
      List.forall_mem_cons.2 ⟨hnew, hnews⟩⟩

/-- A first member without members where no header stands is the header of what is read. -/
theorem exists_tells_of_losesFirst {c' : Composite} {locals : Slots} (hc : c.Configured)
    (hname : c.name = Composite.plain.name) (hkeeps : c.Keeps locals)
    (hheader : Model.header c (members.length + 1) = []) (hne : members ≠ [])
    (h : (Model.composite c' []).Sound) (hb : (Model.composite c (⟨locals, .composite c' []⟩ :: members)).Bare)
    (hmembers : ∀ mem ∈ members, Writable mem.model) :
    ∃ new q, TellsComposite (.composite c (⟨locals, .composite c' []⟩ :: members)) new q ∧
      new.Untied := by
  have hc' : c'.Configured := h.configured
  obtain ⟨p, hp⟩ := exists_header hc'
  obtain ⟨news, phrases, hphrases, hnews⟩ := exists_tells_members hmembers
    (fun mem hmem => hb.changed_eq_nil (List.mem_cons_of_mem _ hmem)) { c' with ties := [], bounds := [] }
  have huntied : (Model.composite { c' with ties := [], bounds := [] } news).Untied :=
    .composite rfl hnews
  have htext := Model.memberText_hollow hc hname hkeeps h
  rw [← hp.text] at htext
  have htexts : Model.memberTexts c.localDefaults (⟨locals, .composite c' []⟩ :: members) =
      (Phrase.closed p :: phrases).map Phrase.text := by
    rw [Model.memberTexts_eq_map, List.map_cons, htext, ← Model.memberTexts_eq_map]
    exact congrArg _ hphrases.texts
  refine ⟨_, _, tells_of_header ⟨hp.closed hc', .inl rfl⟩ hp.opening hp.gives hphrases hne
    (completes_bare hb huntied) ?_, huntied⟩
  have hsections : ([] : List Phrase).flatMap (fun p => ';' :: p.text) =
      Model.sections ';' c.ties c.bounds := (completes_bare hb huntied).text ';'
  rw [text_of_phrases htexts hsections, List.length_cons, hheader, List.nil_append]

theorem exists_tells_composite (h : (Model.composite c members).Sound)
    (hb : (Model.composite c members).Bare) (hne : members ≠ [])
    (hmembers : ∀ mem ∈ members, Writable mem.model) :
    ∃ new q, TellsComposite (.composite c members) new q ∧ new.Untied := by
  cases h with
  | composite hc hm hk _ =>
    cases hfirst : (Model.composite c members).losesFirst with
    | false =>
      obtain ⟨news, phrases, hphrases, hnews⟩ := exists_tells_members hmembers
        (fun mem hmem => hb.changed_eq_nil hmem) { c with ties := [], bounds := [] }
      have huntied : (Model.composite { c with ties := [], bounds := [] } news).Untied :=
        .composite rfl hnews
      obtain ⟨q, hq⟩ := exists_composite hc hne hfirst hphrases (completes_bare hb huntied)
      exact ⟨_, q, hq, huntied⟩
    | true =>
      obtain ⟨⟨locals, m⟩, members, rfl⟩ := List.exists_cons_of_ne_nil hne
      rw [Model.losesFirst, Bool.and_eq_true, List.isEmpty_iff] at hfirst
      obtain ⟨c', rfl⟩ := Model.exists_of_isHollow hfirst.2
      rcases Model.header_cases c (members.length + 1) with hheader | ⟨hheader, hname, -, hsize⟩
      · exact absurd (hheader.symm.trans hfirst.1)
          (List.append_ne_nil_of_right_ne_nil _ (List.cons_ne_nil _ _))
      · refine exists_tells_of_losesFirst hc hname (hk _ List.mem_cons_self) hheader ?_
          (hm _ List.mem_cons_self) hb fun mem hmem => hmembers mem (List.mem_cons_of_mem _ hmem)
        rintro rfl
        exact absurd hsize (Nat.not_succ_le_self 1)

theorem writable {m : Model} (h : m.Sound) (hb : m.Throughout Model.Bare) : Writable m := by
  induction h with
  | curve hc ha => exact writable_curve (.curve hc ha) hb.own
  | @composite c members hc hm hk ha ih =>
    have hsound := Model.Sound.composite hc hm hk ha
    by_cases hne : members = []
    · subst hne
      exact writable_hollow hsound
    · have hown := hb.own
      cases hb with
      | composite _ hb =>
        intro defaults locals hnone
        obtain ⟨new, q, hq, huntied⟩ :=
          exists_tells_composite hsound hown hne fun mem hmem => ih mem hmem (hb mem hmem)
        obtain ⟨p, hp⟩ := exists_member_of_composite rfl hq (hnone ▸ Trails.nil)
        exact ⟨new, p, hp, huntied⟩

/-! ## Whole models -/

theorem exists_limit_of_hollow (h : (Model.composite c []).Sound) : ∃ limit new, ∀ depth, limit ≤ depth →
    (builtin depth).read (Model.composite c []).text = .ok new := by
  have hc : c.Configured := h.configured
  obtain ⟨p, hp⟩ := exists_header hc
  obtain ⟨o, items, hitems⟩ := hp.items []
  obtain ⟨hform, hleaf⟩ := form_of_functionItems hitems
  have hnode := (isNode_of_functionItems hitems).bracketsRemoved_eq
  refine ⟨p.levels, .composite { c with ties := [], bounds := [] } [], fun depth hdepth => ?_⟩
  have hparse : Expr.parse .standard depth (Model.composite c []).text = .ok (p.tree []) := by
    rw [h.text_hollow, ← hp.text, Expr.parse,
      Phrase.parseLevel_cut hp.tight.valid (hp.closed hc).2]
    exact Phrase.parseLevel_eq hp.tight.valid (by omega) (Phrase.trimmed hp.tight.valid).trim_eq
  have hgives : Act.Gives ((builtin depth).readTree (p.tree []).bracketsRemoved) []
      (.composite { c with ties := [], bounds := [] } []) [] := by
    rw [hnode, readTree, if_neg hform]
    exact hp.gives_readFunction hc depth [] []
  refine read_eq_ok_of_gives hparse ?_ hgives
  rw [hnode, Expr.isEmptyMarker, hleaf, Bool.false_and]

/-- The text of a bare model is read. -/
theorem exists_limit_of_bare {m : Model} (h : m.Sound) (hb : m.Throughout Model.Bare) :
    ∃ limit new, ∀ depth, limit ≤ depth → (builtin depth).read m.text = .ok new := by
  cases h with
  | @curve c' hc _ =>
    have huntied : (Model.curve { c'.renumbered with ties := [], bounds := [] }).Untied := .curve rfl
    obtain ⟨limit, hread⟩ := exists_limit_of_curve hc (hc.hasQuote_eq_false hb.own.formula)
      (by rw [userParameters_bare hb.own]; nofun) (completes_bare hb.own huntied)
    exact ⟨limit, _, hread⟩
  | @composite c members hc hm hk ha =>
    have hsound := Model.Sound.composite hc hm hk ha
    by_cases hne : members = []
    · subst hne
      exact exists_limit_of_hollow hsound
    · have hown := hb.own
      cases hb with
      | composite _ hb =>
        obtain ⟨new, q, hq, -⟩ := exists_tells_composite hsound hown hne
          fun mem hmem => writable (hm mem hmem) (hb mem hmem)
        obtain ⟨limit, hread⟩ := hq.exists_limit
        exact ⟨limit, new, hread⟩

/-- A model that is read again from its text has the same types at every level just if, at every level,
no first member without members stands where a header would; and the text of a bare model is always
read. -/
theorem skeleton_of_reread {limit : Nat} {s : Text} {m : Model} (h : (builtin limit).read s = .ok m) :
    (m.Throughout Model.Hides → ∀ depth m', (builtin depth).read m.text = .ok m' →
      (m'.skeleton = m.skeleton ↔ m.Throughout fun m => m.losesFirst = false)) ∧
    (m.Throughout Model.Bare → m.Throughout Model.Hides ∧ ∃ limit', ∀ depth, limit' ≤ depth →
      ∃ m', (builtin depth).read m.text = .ok m') := by
  have hsound := sound_of_read rfl h
  refine ⟨fun hhides depth m' hread => ?_, fun hb => ⟨hsound.hides_of_bare hb, ?_⟩⟩
  · rw [skeleton_of_text hsound hhides hread, Model.outline_eq_skeleton_iff]
  · obtain ⟨limit', new, hread⟩ := exists_limit_of_bare hsound hb
    exact ⟨limit', fun depth hdepth => ⟨new, hread depth hdepth⟩⟩

/-- A composite without members behind a header, and a plain sum in brackets. -/
theorem skeleton_of_reread_nested :
    let s := "composite=MultiDomainFunction;(composite=CompositeFunction;);".toList ++
      "(name=FlatBackground;name=Polynomial,n=1,A1=-3)".toList
    ∃ m, read {} s = .ok m ∧ m.Throughout Model.Bare ∧
      (m.Throughout fun m => m.losesFirst = false) ∧ ∃ limit, ∀ depth, limit ≤ depth →
        ∃ m', (builtin depth).read m.text = .ok m' ∧ m'.skeleton = m.skeleton := by
  intro s
  have hcheck : (read {} s).toOption.any (fun m => m.Throughout Model.Bare &&
      m.Throughout fun m => m.losesFirst = false) = true := by
    decide +kernel
  obtain ⟨m, hread, hm⟩ := Result.exists_of_any hcheck
  rw [Bool.and_eq_true] at hm
  have hb : m.Throughout Model.Bare := of_decide_eq_true hm.1
  have hkept : m.Throughout fun m => m.losesFirst = false := of_decide_eq_true hm.2
  obtain ⟨hskeleton, haccepted⟩ := skeleton_of_reread hread
  obtain ⟨hhides, limit, hlimit⟩ := haccepted hb
  refine ⟨m, hread, hb, hkept, limit, fun depth hdepth => ?_⟩
  obtain ⟨m', hm'⟩ := hlimit depth hdepth
  exact ⟨m', hm', (hskeleton hhides depth m' hm').2 hkept⟩

/-- A quote in what is kept for a member ends the string there, and what follows is one more member. -/
example : (read {} ("composite=MultiDomainFunction;name=FlatBackground,".toList ++
    "$domains=(\"x\";name=UserFunction,Formula=\"y\")".toList)).toOption.any (fun m =>
      m.members.length == 1 && (read {} m.text).toOption.any fun m' => m'.members.length == 2) = true := by
  decide +kernel

/-- A plain sum whose first member has no members is written without a header, and is read as a sum of
the others. -/
theorem exists_lost_member : ∃ m m', read {}
      "composite=CompositeFunction;(composite=CompositeFunction;);name=FlatBackground".toList = .ok m ∧
    m.Throughout Model.Bare ∧ read {} m.text = .ok m' ∧ m.members.length = 2 ∧ m'.members.length = 1 := by
  have hcheck : (read {} "composite=CompositeFunction;(composite=CompositeFunction;);name=FlatBackground".toList
      ).toOption.any (fun m => m.Throughout Model.Bare && m.members.length == 2 &&
        (read {} m.text).toOption.any fun m' => m'.members.length == 1) = true := by
    decide +kernel
  obtain ⟨m, hread, hm⟩ := Result.exists_of_any hcheck
  rw [Bool.and_eq_true, Bool.and_eq_true, beq_iff_eq] at hm
  obtain ⟨m', hread', hm'⟩ := Result.exists_of_any hm.2
  exact ⟨m, m', hread, of_decide_eq_true hm.1.1, hread', hm.1.2, beq_iff_eq.1 hm'⟩

end Reader
end Lineshape
