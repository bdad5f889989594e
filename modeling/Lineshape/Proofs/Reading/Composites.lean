import Lineshape.Proofs.Reading.Headers

/-! # Composites read back

The text of a composite is a sequence: a header if it needs one, its members, and its ties and bounds.
A member that is a composite stands in brackets, and what its composite keeps for it stands behind it.
Whatever each member is read as, the sequence is read as the composite of these, unless its first
member is taken for a header (`Reader.exists_composite`). A model that can be told is read again with
the formula of each tie as it is read from its text (`Reader.exists_limit`). -/

namespace Lineshape
set_option autoImplicit false

open Reader (builtin)

/-! ## What a composite keeps -/

/-- What is written of the slots that a composite keeps for a member: nothing, or the one slot if it
has not the value of a new member. -/
theorem Composite.Keeps.changed {c : Composite} {locals : Slots} (h : c.Keeps locals) :
    (locals.filter (!Slots.unchanged c.localDefaults ·) = [] ∧ locals = c.localDefaults) ∨
      ∃ default s, c.localDefaults = [("domains".toList, .string default)] ∧ Text.Trimmed s ∧
        locals = [("domains".toList, .string s)] ∧
        locals.filter (!Slots.unchanged c.localDefaults ·) = locals := by
  rcases h with ⟨hdefaults, rfl⟩ | ⟨default, s, hdefaults, htrimmed, rfl⟩
  · exact .inl ⟨rfl, hdefaults.symm⟩
  · by_cases hs : default = s
    · left
      rw [hdefaults, hs]
      refine ⟨?_, rfl⟩
      simp [Slots.unchanged, Attribute.same]
    · right
      refine ⟨default, s, hdefaults, htrimmed, rfl, ?_⟩
      rw [hdefaults]
      simp [Slots.unchanged, Attribute.same, hs]

namespace Reader

variable {c : Composite} {members : List (Member Model)} {locals : Slots} {sent s : Parents}

/-- A member gets the slots that were sent from it. -/
theorem gives_adopt (hkeeps : c.Keeps locals)
    (hsent : SentAs (locals.filter (!Slots.unchanged c.localDefaults ·)) sent) (new : Model) :
    Act.Gives (adopt (.composite c members) new sent) s (.composite c (members ++ [⟨locals, new⟩])) s := by
  refine .bind (.change (Act.gives_addMember new)) ?_
  rw [Model.addMember]
  rcases hkeeps.changed with ⟨hnone, hlocals⟩ | ⟨default, t, hdefaults, -, hlocals, hall⟩
  · rw [hnone] at hsent
    cases hsent
    rw [hlocals]
    exact Act.gives_pure
  · rw [hall, hlocals] at hsent
    obtain ⟨p, rest, hp, hnil, rfl⟩ := List.forall₂_cons_left_iff.1 hsent
    cases List.forall₂_nil_left_iff.1 hnil
    obtain ⟨attr, value⟩ := p
    obtain ⟨rfl, hread⟩ := hp
    have hplace : (members ++ [⟨c.localDefaults, new⟩])[members.length]? =
        some ⟨c.localDefaults, new⟩ := List.getElem?_concat_length
    have hold : (Model.composite c (members ++ [⟨c.localDefaults, new⟩])).localAttribute members.length
        "domains".toList = .ok (.string default) := by
      rw [Model.localAttribute, Model.members, hplace, hdefaults]
      rfl
    have hset : (Model.composite c (members ++ [⟨c.localDefaults, new⟩])).setLocal members.length
        "domains".toList value = .ok (.composite c (members ++ [⟨locals, new⟩])) := by
      refine Result.bind_eq_ok.2 ⟨_, hold, Result.bind_eq_ok.2 ⟨_, hread _ _ rfl, ?_⟩⟩
      rw [hplace]
      refine Result.bind_eq_ok.2 ⟨locals, ?_, ?_⟩
      · rw [hdefaults, hlocals]
        rfl
      · rw [List.set_append_right _ _ (Nat.le_refl _), Nat.sub_self]
        rfl
    rw [keep, if_pos (by rw [Model.hasLocal, Model.localDefaults, hdefaults]; rfl)]
    exact .bind (Act.gives_ofModel hset) Act.gives_pure

end Reader

/-! ## Members -/

namespace Model

/-- A composite without members. -/
def isHollow (m : Model) : Bool := m.isComposite && m.members.isEmpty

/-- Written without a header, so that a first member without members is read as the header. -/
def losesFirst : Model → Bool
  | curve _ => false
  | composite c members =>
    (header c members.length).isEmpty && members.head?.any fun mem => mem.model.isHollow

end Model

/-- The text of a member, with what its composite keeps for it. -/
def Model.memberText (defaults : Slots) (mem : Member Model) : Text :=
  (if mem.model.isComposite then '(' :: mem.model.text ++ [')'] else mem.model.text) ++
    slotItems ['$'] (mem.locals.filter (!Slots.unchanged defaults ·))

theorem Model.memberText_curve (defaults locals : Slots) (c : Curve) :
    memberText defaults ⟨locals, .curve c⟩ =
      curveText c ++ slotItems ['$'] (locals.filter (!Slots.unchanged defaults ·)) := rfl

theorem Model.memberText_composite (defaults locals : Slots) (c : Composite)
    (members : List (Member Model)) : memberText defaults ⟨locals, .composite c members⟩ =
      '(' :: (Model.composite c members).text ++ [')'] ++
        slotItems ['$'] (locals.filter (!Slots.unchanged defaults ·)) := rfl

theorem Model.memberTexts_eq_map (defaults : Slots) (members : List (Member Model)) :
    memberTexts defaults members = members.map (memberText defaults) := by
  induction members with
  | nil => rfl
  | cons mem members ih =>
    rw [memberTexts, ih]
    rfl

namespace Reader

/-- A phrase writes a member of a composite, and reading it as a part adds the model `new`, with what
was sent up from it. -/
structure Tells (defaults : Slots) (mem : Member Model) (new : Model) (p : Phrase) : Prop where
  tight : p.Tight 1
  text : p.text = Model.memberText defaults mem
  opening : mem.model.isHollow = false → ∀ op, Opening.of (p.tree op) = .plain
  member : ∀ op, (Part.ofExpr (p.tree op)).isMember = true
  adds : ∃ sent, SentAs (mem.locals.filter (!Slots.unchanged defaults ·)) sent ∧
    ∀ (depth : Nat) (op : Text) (m m' : Model) (s s' : Parents), Act.Gives (adopt m new sent) s m' s' →
      Act.Gives ((builtin depth).addPart (Part.ofExpr (p.tree op)) m) s m' s'

/-- A phrase writes a composite, and reading it gives the model `new`. -/
structure TellsComposite (m new : Model) (p : Phrase) : Prop where
  valid : p.Valid
  rank : p.rank ≠ 0
  text : p.text = m.text
  reads : ∀ op, ∃ o parts, Part.sequence? (p.tree op) = some (o, parts) ∧
    ∀ depth s, Act.Gives ((builtin depth).readParts o parts) s new s

variable {c : Composite} {members : List (Member Model)} {locals : Slots}

/-- Slots that can be told behind a member: under different keys, and without numbers. -/
structure Trails (slots : Slots) : Prop where
  keys : ∀ slot ∈ slots, Word false (['$'] ++ slot.1)
  values : ∀ slot ∈ slots, slot.2.Tellable
  distinct : (Named.names slots).Nodup
  renumbered : slots.renumbered = slots

theorem Trails.nil : Trails [] := ⟨nofun, nofun, List.nodup_nil, rfl⟩

theorem trails_changed (hkeeps : c.Keeps locals) (hquote : ∀ slot ∈ locals, slot.2.hasQuote = false) :
    Trails (locals.filter (!Slots.unchanged c.localDefaults ·)) := by
  rcases hkeeps.changed with ⟨hnone, -⟩ | ⟨default, t, -, htrimmed, hlocals, hall⟩
  · rw [hnone]
    exact .nil
  · rw [hall, hlocals]
    rw [hlocals] at hquote
    have hword : Word false (['$'] ++ "domains".toList) :=
      .of_trace (n := .outside) rfl nofun (by decide) fun _ => rfl
    refine ⟨List.forall_mem_singleton.2 hword, List.forall_mem_singleton.2 ⟨htrimmed, ?_⟩,
      List.nodup_singleton _, rfl⟩
    intro hmem
    have hfree := hquote _ (List.mem_singleton_self _)
    rw [Attribute.hasQuote, List.contains_iff_mem.2 hmem] at hfree
    cases hfree

variable {defaults : Slots}

theorem exists_member_of_curve {c' : Curve} {sections : List Phrase} {new : Model}
    (hc : c'.Configured) (hattributes : ∀ slot ∈ c'.attributes, slot.2.hasQuote = false)
    (hnames : ∀ name ∈ (Model.curve c').userParameters, Text.isParameterKey name = true)
    (hsections : Completes sections (.curve c')
      (.curve { c'.renumbered with ties := [], bounds := [] }) new)
    (htrails : Trails (locals.filter (!Slots.unchanged defaults ·))) :
    ∃ p, Tells defaults ⟨locals, .curve c'⟩ new p := by
  obtain ⟨p, sent, htight, hrank, htext, hsent, hitems, hread⟩ :=
    exists_curve hc hattributes hnames hsections _ htrails.keys htrails.values htrails.distinct
  rw [htrails.renumbered] at hsent
  have hpart : ∀ op, Opening.of (p.tree op) = .plain ∧
      Part.ofExpr (p.tree op) = .function (p.tree op) := by
    intro op
    obtain ⟨head, items, value, hhead, hassign⟩ := hitems op
    have hkey := Item.firstKey?_of_functionItems hhead
    rw [hassign] at hkey
    refine ⟨?_, ?_⟩
    · rw [Opening.of, Phrase.bracketsRemoved_tree htight.valid hrank, hkey]
      rfl
    · rw [Part.ofExpr_of_functionItems hhead hassign, Part.ofItems, hkey]
      rfl
  refine ⟨p, htight, htext, fun _ op => (hpart op).1, fun op => ?_, sent, hsent, ?_⟩
  · rw [(hpart op).2]
    rfl
  · intro depth op m m' s s' hadopt
    rw [(hpart op).2, addPart]
    exact .bind (hread depth op).on hadopt

theorem exists_member_of_composite {m new : Model} {q : Phrase} (hm : m.isComposite = true)
    (hq : TellsComposite m new q) (htrails : Trails (locals.filter (!Slots.unchanged defaults ·))) :
    ∃ p, Tells defaults ⟨locals, m⟩ new p := by
  obtain ⟨items, hitems, hlisted⟩ := Slots.exists_items ['$'] htrails.keys htrails.values
  rw [htrails.renumbered] at hitems
  obtain ⟨sent, hsent, hsend⟩ := exists_sent hitems
  have hfirst : ∀ r, q.bracketed.Tight r := fun _ => .bracketed hq.valid
  have htight : ∀ p ∈ q.bracketed :: items, p.Tight 2 :=
    List.forall_mem_cons.2 ⟨hfirst 2, fun p hp => (hlisted.tight p hp).1⟩
  have hpart : ∀ op, ∃ o parts,
      Part.ofExpr ((Phrase.chain [','] q.bracketed items).tree op) =
        .composite o parts (items.map (·.tree [','])) ∧
      ∀ depth s, Act.Gives ((builtin depth).readParts o parts) s new s := by
    intro op
    have hsequence : ∀ op, ∃ o parts, Part.sequence? (q.bracketed.tree op) = some (o, parts) ∧
        ∀ depth s, Act.Gives ((builtin depth).readParts o parts) s new s := by
      intro op
      obtain ⟨op', hop⟩ := Phrase.bracketsRemoved_bracketed hq.valid hq.rank op
      rw [← Part.sequence?_bracketsRemoved, hop]
      exact hq.reads op'
    by_cases hnone : items = []
    · obtain ⟨o, parts, ho, hread⟩ := hsequence op
      rw [hnone]
      exact ⟨o, parts, Part.ofExpr_of_sequence? ho, hread⟩
    · obtain ⟨o, parts, ho, hread⟩ := hsequence []
      refine ⟨o, parts, ?_, hread⟩
      have hlabel : Phrase.label [','] = [','] := by decide
      rw [Phrase.tree_chain (by decide) (hfirst _) hnone, hlabel, Part.ofExpr_list, ho]
      rfl
  refine ⟨.chain [','] q.bracketed items, Phrase.tight_chain (by decide) (by decide) (by decide) htight,
    ?_, fun _ op => ?_, fun op => ?_, sent, hsent, ?_⟩
  · rw [Phrase.text_chain, Model.memberText, if_pos hm, ← hlisted.text, Phrase.text, hq.text]
    rfl
  · obtain ⟨o, parts, ho, -⟩ := hpart op
    exact Part.opening_of_composite ho
  · obtain ⟨o, parts, ho, -⟩ := hpart op
    rw [ho]
    rfl
  · intro depth op m₁ m₂ s s' hadopt
    obtain ⟨o, parts, ho, hread⟩ := hpart op
    have hsplit : (builtin depth).addPart (.composite o parts (items.map (·.tree [',']))) =
        fun m => Act.on [] ((builtin depth).readParts o parts >>= fun inner => do
          (builtin depth).readTrailing (items.map (·.tree [',']))
          return inner) >>= fun p => adopt m p.1 p.2 := by
      funext m
      rw [addPart, readParts]
      simp only [bind_assoc]
    rw [ho, hsplit]
    exact .bind (Act.Gives.on
      (.bind (hread depth []) (.bind ((hsend [] htrails.distinct).2 depth) Act.gives_pure))) hadopt

/-! ## The parts of a composite -/

theorem addParts_append (r : Reader) (front back : List Part) (m : Model) :
    r.addParts (front ++ back) m = r.addParts front m >>= fun m => r.addParts back m := by
  induction front generalizing m with
  | nil => rw [List.nil_append, addParts, pure_bind]
  | cons part front ih =>
    rw [List.cons_append, addParts, addParts, bind_assoc]
    exact bind_congr fun m => ih m

/-- Reading the part adds the member to a composite. -/
structure AddsMember (c : Composite) (new : Member Model) (part : Part) : Prop where
  member : part.isMember = true
  gives : ∀ (depth : Nat) (front : List (Member Model)) (s : Parents),
    Act.Gives ((builtin depth).addPart part (.composite c front)) s (.composite c (front ++ [new])) s

theorem Tells.adds_kept {mem : Member Model} {new : Model} {p : Phrase}
    (h : Tells c.localDefaults mem new p) (hkeeps : c.Keeps mem.locals) (op : Text) :
    AddsMember c ⟨mem.locals, new⟩ (Part.ofExpr (p.tree op)) where
  member := h.member op
  gives depth front s := by
    obtain ⟨sent, hsent, hadds⟩ := h.adds
    exact hadds depth op _ _ s s (gives_adopt hkeeps hsent new)

theorem gives_addParts {news : List (Member Model)} {parts : List Part} (front : List (Member Model))
    (s : Parents) (hparts : List.Forall₂ (AddsMember c) news parts) (depth : Nat) :
    Act.Gives ((builtin depth).addParts parts (.composite c front)) s
      (.composite c (front ++ news)) s := by
  induction hparts generalizing front with
  | nil =>
    rw [List.append_nil]
    exact Act.gives_pure
  | @cons new part news parts hpart _ ih =>
    have hmore := ih (front ++ [new])
    rw [List.append_assoc] at hmore
    exact .bind (hpart.gives depth front s) hmore

theorem conditionItems_of_addsMember {news : List (Member Model)} {parts : List Part}
    (hparts : List.Forall₂ (AddsMember c) news parts) : Part.conditionItems parts = [] := by
  induction hparts with
  | nil => rfl
  | @cons new part news parts hpart _ ih =>
    have hmember := hpart.member
    rw [Part.conditionItems_cons, ih, List.append_nil]
    cases part with
    | conditions e => cases hmember
    | function e => rfl
    | composite o parts items => rfl

variable {m m' : Model} {items : List Phrase}

theorem Attaches.part {p : Phrase} (h : Attaches p m m') (op : Text) :
    Part.ofExpr (p.tree op) = .conditions (p.tree op) ∧ (p.tree op).toList [','] = [p.tree op] := by
  obtain ⟨key, value, hassign, hkey⟩ := h.key op
  have hform := Part.form_of_assignment? hassign
  have hname := Part.name_of_form.2.2 hform
  have hitems : functionItems (p.tree op) = [p.tree op] := by
    rw [functionItems, hform]
  refine ⟨?_, if_neg fun hlist => ?_⟩
  · have hfirst := Item.firstKey?_of_functionItems hitems
    rw [hassign] at hfirst
    rw [Part.ofExpr_of_functionItems hitems hassign, Part.ofItems, hfirst]
    rcases hkey with rfl | rfl <;> rfl
  · rw [hname] at hlist
    exact absurd hlist.1 (by decide)

/-- Parts for ties and bounds add no members. -/
theorem Attach.parts (h : Attach items m m') : Part.conditionItems
      (items.map fun p => Part.ofExpr (p.tree [';'])) = items.map (·.tree [';']) ∧
    ∀ (r : Reader) (m : Model), r.addParts (items.map fun p => Part.ofExpr (p.tree [';'])) m = pure m := by
  induction h with
  | nil => exact ⟨rfl, fun _ _ => rfl⟩
  | @cons p items m m' m'' hp _ ih =>
    obtain ⟨hpart, hlist⟩ := hp.part [';']
    rw [List.map_cons, List.map_cons, hpart]
    refine ⟨?_, fun r m => ?_⟩
    · rw [Part.conditionItems_cons, ih.1]
      exact congrArg (· ++ _) ((List.append_nil _).trans hlist)
    · rw [addParts, addPart, pure_bind]
      exact ih.2 r m

theorem Attach.gives (h : Attach items m m') (depth : Nat) :
    Act.Gives ((builtin depth).addConditions (items.map (·.tree [';']))) m () m' := by
  induction h with
  | nil => exact Act.gives_pure
  | cons hp _ ih => exact .bind (hp.gives depth [';']) ih

/-- Reading the parts of a composite adds its members and completes it. -/
theorem gives_readParts {o : Opening} {news : List (Member Model)} {parts : List Part} {new : Model}
    (hbegin : ∀ depth s, Act.Gives ((builtin depth).beginComposite o) s (.composite c []) s)
    (hparts : List.Forall₂ (AddsMember c) news parts)
    (hsections : Completes items m (.composite c news) new) (depth : Nat) (s : Parents) :
    Act.Gives ((builtin depth).readParts o
      (parts ++ items.map fun p => Part.ofExpr (p.tree [';']))) s new s := by
  obtain ⟨hitems, hadd⟩ := hsections.attach.parts
  have hadded : Act.Gives ((builtin depth).addParts (parts ++ items.map fun p =>
        Part.ofExpr (p.tree [';'])) (.composite c [])) s (.composite c news) s := by
    rw [addParts_append]
    refine .bind (gives_addParts [] s hparts depth) ?_
    rw [hadd]
    exact Act.gives_pure
  refine .bind (hbegin depth s) (.bind hadded (.change ?_))
  rw [endComposite, Part.conditionItems, List.flatMap_append, ← Part.conditionItems,
    ← Part.conditionItems, conditionItems_of_addsMember hparts, hitems, List.nil_append]
  refine .bind (hsections.attach.gives depth) (.bind (Act.gives_applyTies hsections.ties) ?_)
  exact .bind Act.gives_state (Act.gives_note _)

/-! ## Whole composites -/

/-- Phrases write members, and reading them as parts adds the members `news` to the composite `c`. -/
structure TellsMembers (defaults : Slots) (c : Composite) (members news : List (Member Model))
    (phrases : List Phrase) : Prop where
  tight : ∀ p ∈ phrases, p.Tight 1
  texts : Model.memberTexts defaults members = phrases.map Phrase.text
  adds : ∀ op, List.Forall₂ (AddsMember c) news (phrases.map fun p => Part.ofExpr (p.tree op))
  opening : ∀ mem ∈ members.head?, ∀ p ∈ phrases.head?, mem.model.isHollow = false →
    ∀ op, Opening.of (p.tree op) = .plain

namespace TellsMembers

variable {news : List (Member Model)} {phrases : List Phrase}
  {mem new : Member Model} {p : Phrase}

theorem nil : TellsMembers defaults c [] [] [] := ⟨nofun, rfl, fun _ => .nil, nofun⟩

theorem cons (h : Tells defaults mem new.model p) (hadds : ∀ op, AddsMember c new (Part.ofExpr (p.tree op)))
    (hmore : TellsMembers defaults c members news phrases) :
    TellsMembers defaults c (mem :: members) (new :: news) (p :: phrases) where
  tight := List.forall_mem_cons.2 ⟨h.tight, hmore.tight⟩
  texts := by
    rw [Model.memberTexts_eq_map, List.map_cons, ← Model.memberTexts_eq_map, hmore.texts,
      List.map_cons, h.text]
  adds op := .cons (hadds op) (hmore.adds op)
  opening := by
    rintro mem' hmem p' hp
    cases hmem
    cases hp
    exact h.opening

theorem exists_first (h : TellsMembers defaults c members news phrases) (hne : members ≠ []) :
    ∃ first more, phrases = first :: more := by
  obtain ⟨mem, more, rfl⟩ := List.exists_cons_of_ne_nil hne
  refine List.exists_cons_of_ne_nil fun hnil => ?_
  have htexts := h.texts
  rw [hnil, Model.memberTexts_eq_map] at htexts
  cases htexts

end TellsMembers

/-- The sequence of terms behind a first one. -/
theorem sequence?_chain {first : Phrase} {more : List Phrase} (hfirst : first.Tight 1)
    (hmore : more ≠ []) (op : Text) : Part.sequence? ((Phrase.chain [';'] first more).tree op) =
      some (Opening.of (first.tree []),
        if (Opening.of (first.tree [])).isHeader then more.map fun p => Part.ofExpr (p.tree [';'])
        else Part.ofExpr (first.tree []) :: more.map fun p => Part.ofExpr (p.tree [';'])) := by
  have hlabel : Phrase.label [';'] = [';'] := by decide
  have htree : (Phrase.chain [';'] first more).tree op =
      ⟨Phrase.label [';'], op, first.tree [] :: more.map (·.tree [';'])⟩ :=
    Phrase.tree_chain (by decide : OperatorTable.standard.isBinary [';'] = true) hfirst hmore op
  rw [htree, hlabel, Part.sequence?_sequence, List.map_cons, List.map_map]
  rfl

theorem TellsComposite.of_chain {new : Model} {first : Phrase} {more : List Phrase}
    (htight : ∀ p ∈ first :: more, p.Tight 1) (hmore : more ≠ [])
    (htext : first.text ++ more.flatMap (fun p => ';' :: p.text) = m.text)
    (hreads : ∀ depth s, Act.Gives ((builtin depth).readParts (Opening.of (first.tree []))
      (if (Opening.of (first.tree [])).isHeader then more.map fun p => Part.ofExpr (p.tree [';'])
        else Part.ofExpr (first.tree []) :: more.map fun p => Part.ofExpr (p.tree [';']))) s new s) :
    TellsComposite m new (.chain [';'] first more) where
  valid := Phrase.valid_chain (by decide) htight fun _ _ _ => by decide
  rank := by
    rw [Phrase.rank_chain, if_neg hmore]
    decide
  text := by rw [Phrase.text_chain, ← htext]; rfl
  reads op := ⟨_, _, sequence?_chain (htight first List.mem_cons_self) hmore op, hreads⟩

variable {news : List (Member Model)} {phrases sections : List Phrase} {new : Model}

theorem text_of_phrases {first : Phrase} {more : List Phrase}
    (htexts : Model.memberTexts c.localDefaults members = (first :: more).map Phrase.text)
    (hsections : sections.flatMap (fun p => ';' :: p.text) = Model.sections ';' c.ties c.bounds) :
    (Model.composite c members).text = Model.header c members.length ++
      (first.text ++ (more ++ sections).flatMap fun p => ';' :: p.text) := by
  rw [Model.text, htexts, List.map_cons, Text.intercalate_cons, ← hsections, List.flatMap_append,
    List.flatMap_map, List.append_assoc, List.append_assoc]
  rfl

theorem tight_of_completes {start : Model} (hmembers : TellsMembers defaults c members news phrases)
    (hsections : Completes sections m start new) : ∀ p ∈ phrases ++ sections, p.Tight 1 :=
  List.forall_mem_append.2 ⟨hmembers.tight, fun p hp => (hsections.tight p hp).1.mono (by decide)⟩

/-- A header, members, and ties and bounds. -/
theorem tells_of_header {p : Phrase} (hp : p.Tight 1)
    (hopening : ∀ op, Opening.of (p.tree op) = .header (p.tree op))
    (hbegin : ∀ depth op s, Act.Gives ((builtin depth).readHeader (p.tree op)) s (.composite c []) s)
    (hmembers : TellsMembers defaults c members news phrases) (hne : members ≠ [])
    (hsections : Completes sections m (.composite c news) new)
    (htext : p.text ++ (phrases ++ sections).flatMap (fun p => ';' :: p.text) = m.text) :
    TellsComposite m new (.chain [';'] p (phrases ++ sections)) := by
  obtain ⟨first, more, rfl⟩ := hmembers.exists_first hne
  refine .of_chain (List.forall_mem_cons.2 ⟨hp, tight_of_completes hmembers hsections⟩) nofun htext ?_
  rw [hopening, Opening.isHeader, if_pos rfl, List.map_append]
  exact gives_readParts (fun depth s => hbegin depth [] s) (hmembers.adds [';']) hsections

/-- Members of a plain sum, and ties and bounds. -/
theorem tells_of_plain {first : Phrase} {more : List Phrase}
    (hopening : ∀ op, Opening.of (first.tree op) = .plain)
    (hbegin : ∀ depth s, Act.Gives ((builtin depth).beginComposite .plain) s (.composite c []) s)
    (hmembers : TellsMembers defaults c members news (first :: more))
    (hne : more ++ sections ≠ []) (hsections : Completes sections m (.composite c news) new)
    (htext : first.text ++ (more ++ sections).flatMap (fun p => ';' :: p.text) = m.text) :
    TellsComposite m new (.chain [';'] first (more ++ sections)) := by
  refine .of_chain (tight_of_completes hmembers hsections) hne htext ?_
  have hheader : Opening.plain.isHeader = false := rfl
  rw [hopening, hheader, if_neg Bool.false_ne_true, List.map_append, ← List.cons_append]
  have hfirst := hmembers.adds []
  have hmore := hmembers.adds [';']
  rw [List.map_cons, List.forall₂_cons_right_iff] at hfirst hmore
  obtain ⟨first', news', hadds, -, rfl⟩ := hfirst
  obtain ⟨_, _, -, hmore, he⟩ := hmore
  cases he
  have hall : List.Forall₂ (AddsMember c) (first' :: news') (Part.ofExpr (first.tree []) ::
      more.map fun p => Part.ofExpr (p.tree [';'])) := .cons hadds hmore
  exact gives_readParts hbegin hall hsections

/-- The phrase of a composite whose members have phrases. -/
theorem exists_composite (hc : c.Configured) (hne : members ≠ [])
    (hkept : (Model.composite c members).losesFirst = false)
    (hmembers : TellsMembers c.localDefaults { c with ties := [], bounds := [] } members news phrases)
    (hsections : Completes sections (.composite c members)
      (.composite { c with ties := [], bounds := [] } news) new) :
    ∃ q, TellsComposite (.composite c members) new q := by
  obtain ⟨first, more, rfl⟩ := hmembers.exists_first hne
  have htext := text_of_phrases hmembers.texts (hsections.text ';')
  rcases Model.header_cases c members.length with hheader | ⟨hheader, hname, hchanged, hsize⟩
  · obtain ⟨p, hp⟩ := exists_header hc
    refine ⟨_, tells_of_header hp.tight hp.opening hp.gives hmembers hne hsections ?_⟩
    rw [htext, hheader, hp.text]
    simp
  · have hlength : members.length = (first :: more).length := by
      have htexts := congrArg List.length hmembers.texts
      rwa [Model.memberTexts_eq_map, List.length_map, List.length_map] at htexts
    have hmore : more ++ sections ≠ [] := by
      intro hnil
      rw [hlength, (List.append_eq_nil_iff.1 hnil).1] at hsize
      exact absurd hsize (Nat.not_succ_le_self 1)
    have hopening : ∀ op, Opening.of (first.tree op) = .plain := by
      obtain ⟨mem, members, rfl⟩ := List.exists_cons_of_ne_nil hne
      rw [Model.losesFirst, hheader] at hkept
      exact hmembers.opening mem rfl first rfl hkept
    refine ⟨_, tells_of_plain hopening (begins_plain hc hname hchanged) hmembers hmore hsections ?_⟩
    rw [htext, hheader, List.nil_append]

/-! ## Models that can be told -/

theorem exists_completes_composite (h : (Model.composite c members).Sound)
    (hl : (Model.composite c members).Throughout Model.Legible) :
    ∃ sections, Completes sections (.composite c members)
      (.composite { c with ties := [], bounds := [] } (Model.canonicalMembers members))
      (Model.composite c members).canonical :=
  exists_completes h hl (fun name => Model.hasParameter_canonical (.composite c members) name) rfl rfl rfl

theorem keepsFirst_of_legible (h : (Model.composite c members).Throughout Model.Legible) :
    (Model.composite c members).losesFirst = false := by
  have hfirst : (members.head?.any fun mem => mem.model.isHollow) = false := by
    cases members with
    | nil => rfl
    | cons mem members =>
      cases h with
      | composite _ hmembers =>
        have hlegible := (hmembers mem List.mem_cons_self).own.members
        rw [List.head?_cons, Option.any_some, Model.isHollow, Bool.and_eq_false_imp]
        exact fun hcomposite => List.isEmpty_eq_false_iff.2 (hlegible hcomposite)
  rw [Model.losesFirst, hfirst, Bool.and_false]

theorem exists_legible_members {base : Composite}
    (hkeeps : ∀ mem ∈ members, base.Keeps mem.locals)
    (h : ∀ mem ∈ members, ∃ p, Tells base.localDefaults mem mem.model.canonical p) :
    ∃ phrases, TellsMembers base.localDefaults base members (Model.canonicalMembers members) phrases := by
  induction members with
  | nil => exact ⟨[], .nil⟩
  | cons mem members ih =>
    obtain ⟨hfirst, hmore⟩ := List.forall_mem_cons.1 h
    obtain ⟨hkept, hkeeps⟩ := List.forall_mem_cons.1 hkeeps
    obtain ⟨p, hp⟩ := hfirst
    obtain ⟨phrases, hphrases⟩ := ih hkeeps hmore
    exact ⟨p :: phrases, .cons hp (hp.adds_kept hkept) hphrases⟩

/-- The phrase of a composite that can be told, if its members have phrases. -/
theorem exists_legible_composite (h : (Model.composite c members).Sound)
    (hl : (Model.composite c members).Throughout Model.Legible)
    (hmembers : ∀ mem ∈ members, ∀ {c : Composite} {locals : Slots}, mem.model.Sound →
      mem.model.Throughout Model.Legible → c.Keeps locals →
      (∀ slot ∈ locals, slot.2.hasQuote = false) →
      ∃ p, Tells c.localDefaults ⟨locals, mem.model⟩ mem.model.canonical p) :
    ∃ q, TellsComposite (.composite c members) (Model.composite c members).canonical q := by
  obtain ⟨sections, hsections⟩ := exists_completes_composite h hl
  have hlocals := hl.own.locals
  have hkept := keepsFirst_of_legible hl
  cases h with
  | composite hc hsound hkeeps _ =>
    cases hl with
    | composite hown hlegible =>
      have hkeeps' : ∀ mem ∈ members, Composite.Keeps { c with ties := [], bounds := [] } mem.locals :=
        hkeeps
      obtain ⟨phrases, hphrases⟩ := exists_legible_members hkeeps' fun mem hmem => hmembers mem hmem
        (hsound mem hmem) (hlegible mem hmem) (hkeeps mem hmem) (hlocals mem hmem)
      exact exists_composite hc (hown.members rfl) hkept hphrases hsections

/-- Every member of a composite that can be told has a phrase. -/
theorem exists_member {m : Model} (h : m.Sound) (hl : m.Throughout Model.Legible)
    (hkeeps : c.Keeps locals) (hquote : ∀ slot ∈ locals, slot.2.hasQuote = false) :
    ∃ p, Tells c.localDefaults ⟨locals, m⟩ m.canonical p := by
  induction m generalizing c locals with
  | curve c' =>
    obtain ⟨sections, hsections⟩ := exists_completes_curve h hl
    cases h with
    | curve hc _ =>
      exact exists_member_of_curve hc hl.own.attributes hl.own.names hsections
        (trails_changed hkeeps hquote)
  | composite c' members ih =>
    obtain ⟨q, hq⟩ := exists_legible_composite h hl ih
    exact exists_member_of_composite rfl hq (trails_changed hkeeps hquote)

/-! ## Whole models -/

theorem form_of_functionItems {e head : Expr} {items : List Expr}
    (h : functionItems e = head :: items) : e.form ≠ .sequence ∧ e.isLeaf = false := by
  rw [functionItems] at h
  split at h
  · rename_i hform
    obtain ⟨first, more, he⟩ := Part.exists_terms_of_form hform (by decide)
    rw [hform, he]
    exact ⟨by decide, rfl⟩
  · rename_i hform
    obtain ⟨first, more, he⟩ := Part.exists_terms_of_form hform (by decide)
    rw [hform, he]
    exact ⟨by decide, rfl⟩
  · cases h

/-- What the phrase of a text gives is read from the text. -/
theorem exists_limit_of_phrase {p : Phrase} {m new : Model} (hvalid : p.Valid) (htext : p.text = m.text)
    (hne : (p.tree []).bracketsRemoved.isEmptyMarker = false)
    (hread : ∀ depth, Act.Gives ((builtin depth).readTree (p.tree []).bracketsRemoved) [] new []) :
    ∃ limit, ∀ depth, limit ≤ depth → (builtin depth).read m.text = .ok new := by
  refine ⟨p.levels, fun depth hdepth => ?_⟩
  have hparse : Expr.parse .standard depth m.text = .ok (p.tree []) :=
    Phrase.parseLevel_eq hvalid (by omega) (htext ▸ (Phrase.trimmed hvalid).trim_eq)
  exact read_eq_ok_of_gives hparse hne (hread depth)

theorem TellsComposite.exists_limit {m new : Model} {q : Phrase} (h : TellsComposite m new q) :
    ∃ limit, ∀ depth, limit ≤ depth → (builtin depth).read m.text = .ok new := by
  obtain ⟨o, parts, hparts, hread⟩ := h.reads []
  have hnode := Phrase.bracketsRemoved_tree h.valid h.rank []
  have hform := Part.form_of_sequence? hparts
  rw [hnode] at hform
  refine exists_limit_of_phrase h.valid h.text ?_ fun depth => ?_
  · obtain ⟨first, more, he⟩ := Part.exists_terms_of_form hform (by decide)
    rw [hnode, he]
    rfl
  · rw [hnode, readTree, if_pos hform, readComposite, hparts]
    exact hread depth []

theorem exists_limit_of_curve {c' : Curve} {sections : List Phrase} {new : Model} (hc : c'.Configured)
    (hattributes : ∀ slot ∈ c'.attributes, slot.2.hasQuote = false)
    (hnames : ∀ name ∈ (Model.curve c').userParameters, Text.isParameterKey name = true)
    (hsections : Completes sections (.curve c')
      (.curve { c'.renumbered with ties := [], bounds := [] }) new) :
    ∃ limit, ∀ depth, limit ≤ depth → (builtin depth).read (Model.curve c').text = .ok new := by
  obtain ⟨p, sent, htight, hrank, htext, hsent, hitems, hread⟩ := exists_curve hc hattributes hnames
    hsections [] (List.forall_mem_nil _) (List.forall_mem_nil _) List.nodup_nil
  cases hsent
  obtain ⟨head, items, value, hhead, -⟩ := hitems []
  obtain ⟨hform, hleaf⟩ := form_of_functionItems hhead
  have hnode := Phrase.bracketsRemoved_tree htight.valid hrank []
  refine exists_limit_of_phrase htight.valid (htext.trans (List.append_nil _)) ?_ fun depth => ?_
  · rw [hnode, Expr.isEmptyMarker, hleaf, Bool.false_and]
  · rw [hnode, readTree, if_neg hform]
    exact hread depth []

/-- The text of a model that can be told is read. -/
theorem exists_limit {m : Model} (h : m.Sound) (hl : m.Throughout Model.Legible) :
    ∃ limit, ∀ depth, limit ≤ depth → (builtin depth).read m.text = .ok m.canonical := by
  cases m with
  | curve c' =>
    obtain ⟨sections, hsections⟩ := exists_completes_curve h hl
    cases h with
    | curve hc _ => exact exists_limit_of_curve hc hl.own.attributes hl.own.names hsections
  | composite c' members =>
    obtain ⟨q, hq⟩ := exists_legible_composite h hl fun _ _ _ _ hsound hlegible hkeeps hquote =>
      exists_member hsound hlegible hkeeps hquote
    exact hq.exists_limit

/-- Reading the text of a model gives a model with the same description. -/
theorem description_of_reread {limit : Nat} {s : Text} {m : Model} (h : (builtin limit).read s = .ok m)
    (hl : m.Throughout Model.Legible) : ∃ limit', ∀ depth, limit' ≤ depth →
      ∃ m', (builtin depth).read m.text = .ok m' ∧ m'.description = m.description := by
  have hsound := sound_of_read rfl h
  obtain ⟨limit', hread⟩ := exists_limit hsound hl
  exact ⟨limit', fun depth hdepth =>
    ⟨m.canonical, hread depth hdepth, hsound.description_canonical hl⟩⟩

/-- A composite in a composite, with ties and bounds at every level and an attribute of a member. -/
theorem description_of_reread_nested :
    let s := "composite=MultiDomainFunction,NumDeriv=true;".toList ++
      "(name=Polynomial,n=1,A1=-3;name=FlatBackground;constraints=(0<f0.A0<5,penalty=7));".toList ++
      "name=UserFunction,Formula=a*x+b,b=2,ties=(a=b/4),$domains=i;ties=(f0.f0.A0=f1.a*2)".toList
    ∃ m, read {} s = .ok m ∧ m.Throughout Model.Legible ∧ ∃ limit, ∀ depth, limit ≤ depth →
      ∃ m', (builtin depth).read m.text = .ok m' ∧ m'.description = m.description := by
  intro s
  have hcheck : (read {} s).toOption.any (fun m => m.Throughout Model.Legible) = true := by
    decide +kernel
  obtain ⟨m, hread, hm⟩ := Result.exists_of_any hcheck
  have hl : m.Throughout Model.Legible := of_decide_eq_true hm
  exact ⟨m, hread, hl, description_of_reread hread hl⟩

end Reader
end Lineshape
