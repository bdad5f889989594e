import Lineshape.Proofs.Curve.Rebuilt
import Lineshape.Proofs.Reading.Lists

/-! # Curves read back

The text of a curve is a list of items. Reading them gives a new curve of the shape the attributes and
then the parameters of the curve, with each number as its own text gives it (`Curve.renumbered`), and
then what its ties and bounds complete it to (`Reader.Completes`, `Reader.exists_curve`). -/

namespace Lineshape
set_option autoImplicit false

open Reader (builtin)

/-! ## Items that write slots -/

/-- Items that write slots in order, with a mark before each key. -/
def Slots.WrittenBy (mark : Text) (slots : Slots) (items : List Phrase) : Prop :=
  List.Forall₂ (fun slot p => ∃ v, slot.2.WrittenAs v ∧ p = Phrase.item (mark ++ slot.1) v) slots items

/-- Phrases that can stand in a list, with the text that they are there. -/
structure Phrase.Listed (items : List Phrase) (text : Text) : Prop where
  tight : ∀ p ∈ items, p.Tight 2 ∧ p.rank ≠ 0
  text : items.flatMap (fun p => ',' :: p.text) = text

theorem Phrase.Listed.nil : Listed [] [] := ⟨nofun, rfl⟩

theorem Phrase.Listed.append {front back : List Phrase} {s t : Text} (hf : Listed front s)
    (hb : Listed back t) : Listed (front ++ back) (s ++ t) where
  tight p hp := (List.mem_append.1 hp).elim (hf.tight p) (hb.tight p)
  text := by rw [List.flatMap_append, hf.text, hb.text]

theorem Phrase.rank_item_ne_zero (key : Text) (value : Phrase) : (item key value).rank ≠ 0 :=
  (by decide : OperatorTable.standard.precedence ['='] ≠ 0)

theorem Phrase.Listed.item {key : Text} {value : Phrase} (hkey : Word false key)
    (hvalue : value.Tight 3) : Listed [.item key value] (',' :: Model.item key value.text) where
  tight := List.forall_mem_singleton.2 ⟨tight_item hkey hvalue (Nat.le_refl 2),
    rank_item_ne_zero key value⟩
  text := List.append_nil _

theorem Phrase.assignment?_item (key : Text) (value : Phrase) (op : Text) :
    Item.assignment? ((Phrase.item key value).tree op) = some (key, value.tree ['=']) := by
  rw [tree_item]
  rfl

theorem Slots.exists_items (mark : Text) {slots : Slots}
    (hkeys : ∀ slot ∈ slots, Word false (mark ++ slot.1))
    (hvalues : ∀ slot ∈ slots, slot.2.Tellable) :
    ∃ items, slots.renumbered.WrittenBy mark items ∧
      Phrase.Listed items (Model.slotItems mark slots) := by
  induction slots with
  | nil => exact ⟨[], .nil, .nil⟩
  | cons slot slots ih =>
    obtain ⟨items, hitems, hlisted⟩ := ih (fun s hs => hkeys s (List.mem_cons_of_mem slot hs))
      fun s hs => hvalues s (List.mem_cons_of_mem slot hs)
    obtain ⟨v, hv, hvtext⟩ := Attribute.exists_phrase (hvalues slot List.mem_cons_self)
    have hfirst := Phrase.Listed.item (hkeys slot List.mem_cons_self) hv.tight
    refine ⟨.item (mark ++ slot.1) v :: items, .cons ⟨v, hv, rfl⟩ hitems, ?_⟩
    have hall := hfirst.append hlisted
    rw [hvtext] at hall
    have htext : Model.slotItems mark (slot :: slots) =
        ',' :: Model.item (mark ++ slot.1) slot.2.modelText ++ Model.slotItems mark slots := by
      simp [Model.slotItems, Model.item]
    rwa [htext]

/-! ## Reading items in order -/

namespace Reader

theorem readItems_append (r : Reader) (m : Model) (front back : List Expr) :
    r.readItems m (front ++ back) = r.readItems m front >>= fun m => r.readItems m back := by
  induction front generalizing m with
  | nil => rw [List.nil_append, readItems, pure_bind]
  | cons item front ih =>
    rw [List.cons_append, readItems, readItems, bind_assoc]
    exact bind_congr fun m => ih m

/-- Reading items makes a model another one, and sends attributes up. -/
def Reads (items : List Phrase) (m : Model) (s : Parents) (m' : Model) (s' : Parents) : Prop :=
  ∀ depth, Act.Gives ((builtin depth).readItems m (items.map (·.tree [',']))) s m' s'

variable {m m' m'' : Model} {s s' s'' : Parents} {front back items : List Phrase}

theorem Reads.nil (m : Model) (s : Parents) : Reads [] m s m s := fun _ => Act.gives_pure

theorem Reads.append (hf : Reads front m s m' s') (hb : Reads back m' s' m'' s'') :
    Reads (front ++ back) m s m'' s'' := by
  intro depth
  rw [List.map_append, readItems_append]
  exact .bind (hf depth) (hb depth)

theorem Reads.cons {p : Phrase}
    (hp : ∀ depth, Act.Gives ((builtin depth).readItem m (p.tree [','])) s m' s')
    (h : Reads items m' s' m'' s'') : Reads (p :: items) m s m'' s'' :=
  fun depth => .bind (hp depth) (h depth)

theorem readItem_item (depth : Nat) (m : Model) (key : Text) (value : Phrase) (op : Text) :
    (builtin depth).readItem m ((Phrase.item key value).tree op) =
      (builtin depth).readAssignment m key (value.tree ['=']) := by
  rw [readItem, Phrase.assignment?_item]

/-! ## Attributes and parameters -/

variable {c c' : Curve}

/-- Reading the attributes of a curve gives them to a blank one. -/
theorem exists_reads_attributes (h : c.Configured) (hblank : Curve.Blank c c') {slots : Slots}
    (hslots : ∀ slot ∈ slots, slot ∈ c.attributes) (hitems : slots.WrittenBy [] items) (s : Parents) :
    ∃ c'', Curve.Blank c c'' ∧ c''.attributes = Named.setAll c'.attributes slots ∧
      Reads items (.curve c') s (.curve c'') s := by
  induction hitems generalizing c' with
  | nil => exact ⟨c', hblank, rfl, .nil _ _⟩
  | @cons slot p slots items hp _ ih =>
    obtain ⟨name, value⟩ := slot
    obtain ⟨v, hv, rfl⟩ := hp
    obtain ⟨old, c₁, hold, htype, hset, hblank₁, hattributes₁⟩ :=
      h.exists_setAttribute hblank (hslots _ List.mem_cons_self)
    obtain ⟨c₂, hblank₂, hattributes₂, hread⟩ :=
      ih hblank₁ fun slot hslot => hslots slot (List.mem_cons_of_mem _ hslot)
    refine ⟨c₂, hblank₂, ?_, .cons (fun depth => ?_) hread⟩
    · rw [hattributes₂, hattributes₁]
      rfl
    · have hhas : (Model.curve c').hasAttribute name = true := by
        rw [Model.hasAttribute, Named.has]
        exact (congrArg Option.isSome hold).trans rfl
      have hget : (Model.curve c').getAttribute name = .ok old := by
        rw [Model.getAttribute, Slots.get]
        exact (congrArg (Option.elim · _ Except.ok) hold).trans rfl
      have htext : (Model.curve c').setAttributeText name (Item.unquote (v.tree ['=']).text) =
          .ok (.curve c₁) := by
        refine Result.bind_eq_ok.2 ⟨old, hget, Result.bind_eq_ok.2 ⟨value, ?_, ?_⟩⟩
        · exact hv.reread name ['='] old htype
        · exact Result.map_eq_ok.2 ⟨c₁, hset, rfl⟩
      rw [List.nil_append, readItem_item, readAssignment, if_pos hhas]
      exact Act.gives_ofModel htext

/-- Whatever its key, an item with the name of a parameter and a number sets the parameter. -/
theorem readAssignment_of_parameter (r : Reader) {name : Text} {value : Expr} {x : Float}
    (hread : Number.read? (r.render value) = some x) (hname : name ∈ Named.names c'.parameters)
    (hfree : name ∉ Named.names c'.attributes)
    (hkey : Key.ofText name ∈ [.name, .composite, .other name]) :
    r.readAssignment (.curve c') name value =
      Act.ofModel (.ok (.curve { c' with parameters := Named.set name x c'.parameters })) := by
  have hattribute : (Model.curve c').hasAttribute name ≠ true :=
    fun h => hfree (Named.has_iff_mem_names.1 h)
  have hset : (Model.curve c').setParameter name x =
      .ok (.curve { c' with parameters := Named.set name x c'.parameters }) := by
    rw [Model.setParameter, Model.set?, if_pos (Named.has_iff_mem_names.2 hname)]
    rfl
  rw [readAssignment, if_neg hattribute]
  simp only [List.mem_cons, List.not_mem_nil, or_false] at hkey
  rcases hkey with hcase | hcase | hcase
  all_goals
    rw [hcase]
    dsimp only
    rw [hread]
    dsimp only
    rw [hset]

/-- Reading the parameters of a curve gives them the numbers that are read from their texts. -/
theorem reads_parameters (values : Named Float)
    (hkeys : ∀ p ∈ values, Curve.ParameterKey (Named.names c'.attributes) p.1 ∧
      p.1 ∈ Named.names c'.parameters) (s : Parents) :
    Reads (values.map fun p => .item p.1 (Number.phrase (Number.plain p.2))) (.curve c') s
      (.curve { c' with
        parameters := Named.setAll c'.parameters (values.map fun p => (p.1, Number.reread p.2)) }) s := by
  induction values generalizing c' with
  | nil => exact .nil _ _
  | cons p values ih =>
    obtain ⟨name, value⟩ := p
    obtain ⟨hkey, hmem⟩ := hkeys _ List.mem_cons_self
    have hmore := @ih { c' with parameters := Named.set name (Number.reread value) c'.parameters } (by
      intro p hp
      obtain ⟨hkey', hmem'⟩ := hkeys p (List.mem_cons_of_mem _ hp)
      refine ⟨hkey', ?_⟩
      rw [Named.names_set]
      exact hmem')
    refine .cons (fun depth => ?_) hmore
    obtain ⟨-, -, -, -, htree⟩ := Number.phrase_spec (Number.read?_plain value)
    have hread : Number.read? ((builtin depth).render
        ((Number.phrase (Number.plain value)).tree ['='])) = some (Number.reread value) :=
      (congrArg Number.read? (htree ['='])).trans (Number.read?_plain value)
    rw [readItem_item, readAssignment_of_parameter _ hread hmem hkey.free hkey.key]
    exact Act.gives_ofModel rfl

/-! ## Ties and bounds -/

/-- The phrase of a list of ties or of bounds that turns a model into another one. -/
structure Attaches (p : Phrase) (m m' : Model) : Prop where
  key : ∀ op, ∃ key value, Item.assignment? (p.tree op) = some (key, value) ∧
    (key = "ties".toList ∨ key = "constraints".toList)
  attributes : m'.attributes = m.attributes
  gives : ∀ depth op, Act.Gives ((builtin depth).addCondition (p.tree op)) m () m'

/-- Phrases of lists of ties and bounds that one after the other turn a model into another one. -/
inductive Attach : List Phrase → Model → Model → Prop
  | nil (m : Model) : Attach [] m m
  | cons {p : Phrase} {items : List Phrase} {m m' m'' : Model} : Attaches p m m' →
    Attach items m' m'' → Attach (p :: items) m m''

theorem Attach.append (hf : Attach front m m') (hb : Attach back m' m'') :
    Attach (front ++ back) m m'' := by
  induction hf with
  | nil => exact hb
  | cons hp _ ih => exact .cons hp (ih hb)

theorem addCondition_of_ties {r : Reader} {e value : Expr}
    (h : Item.assignment? e = some ("ties".toList, value)) :
    r.addCondition e = r.addTies value.bracketsRemoved := by
  rw [addCondition, h]
  rfl

theorem addCondition_of_constraints {r : Reader} {e value : Expr}
    (h : Item.assignment? e = some ("constraints".toList, value)) :
    r.addCondition e = r.addConstraints value.bracketsRemoved := by
  rw [addCondition, h]
  rfl

/-- The items for the ties of a model. -/
theorem exists_tie_items {ties : List Tie} (h : ∀ tie ∈ ties, tie.Legible m)
    (hdistinct : (ties.map (·.parameter)).Nodup) :
    ∃ items : List Phrase, (∀ p ∈ items, p.Tight 2 ∧ p.rank ≠ 0) ∧
      (∀ separator, items.flatMap (fun p => separator :: p.text) = Model.sections separator ties []) ∧
      ∀ m', (∀ name, m'.hasParameter name = m.hasParameter name) → m'.ties = [] →
        Attach items m' (m'.withTies (ties.map Tie.canonical)) := by
  cases ties with
  | nil =>
    refine ⟨[], nofun, fun _ => rfl, fun m' _ hnone => ?_⟩
    rw [List.map_nil, ← hnone, Model.withTies_ties]
    exact .nil m'
  | cons tie ties =>
    obtain ⟨p, htight, htext, hread⟩ := exists_ties h (List.cons_ne_nil tie ties) hdistinct
    have hlisted := Phrase.Listed.item (Word.of_dotted (by decide : isDotted "ties".toList = true)) htight
    refine ⟨[.item "ties".toList p], hlisted.tight, fun separator => ?_, fun m' hhas hnone => ?_⟩
    · have hitem : (Phrase.item "ties".toList p).text = Model.item "ties".toList p.text := rfl
      rw [List.flatMap_singleton, hitem, htext]
      exact (List.append_nil _).symm
    · have hassign : ∀ op, Item.assignment? ((Phrase.item "ties".toList p).tree op) =
          some ("ties".toList, p.tree ['=']) := Phrase.assignment?_item _ _
      refine .cons ⟨fun op => ⟨_, _, hassign op, .inl rfl⟩, Model.attributes_withTies _ _,
        fun depth op => ?_⟩ (.nil _)
      rw [addCondition_of_ties (hassign op)]
      exact hread depth ['='] m' hhas hnone

/-- The section of bounds that the function did not bring itself. -/
theorem sections_bounds {bounds : List Bound} (h : ∀ b ∈ bounds, b.isDefault = false)
    (hne : bounds ≠ []) (separator : Char) :
    Model.sections separator [] bounds = separator :: Model.item "constraints".toList
      ('(' :: List.intercalate [','] (bounds.flatMap Bound.items) ++ [')']) := by
  have hown : bounds.filter (!·.isDefault) = bounds :=
    List.filter_eq_self.2 fun b hb => by rw [h b hb]; rfl
  have hnonempty : (bounds.flatMap Bound.items).isEmpty = false := by
    obtain ⟨b, more, rfl⟩ := List.exists_cons_of_ne_nil hne
    rw [List.flatMap_cons, Bound.items]
    split <;> rfl
  rw [Model.sections]
  dsimp only
  rw [hown, hnonempty]
  rfl

/-- The items for the bounds of a model. -/
theorem exists_bound_items {bounds : List Bound} (h : ∀ b ∈ bounds, b.Stated ∧
      Qualified.Spelling Unbroken b.parameter ∧ ∀ x ∈ b.numbers, Number.read? (Number.plain x) = some x)
    (hdistinct : (bounds.map (·.parameter)).Nodup) :
    ∃ items : List Phrase, (∀ p ∈ items, p.Tight 2 ∧ p.rank ≠ 0) ∧
      (∀ separator, items.flatMap (fun p => separator :: p.text) =
        Model.sections separator [] bounds) ∧
      ∀ m', (∀ b ∈ bounds, m'.hasParameter b.parameter = true) → m'.bounds = [] →
        Attach items m' (m'.withBounds bounds) := by
  cases bounds with
  | nil =>
    refine ⟨[], nofun, fun _ => rfl, fun m' _ hnone => ?_⟩
    rw [← hnone, Model.withBounds_bounds]
    exact .nil m'
  | cons b bounds =>
    obtain ⟨p, htight, -, htext, hread⟩ := exists_bounds h (List.cons_ne_nil b bounds) hdistinct
    have hlisted :=
      Phrase.Listed.item (Word.of_dotted (by decide : isDotted "constraints".toList = true)) htight
    refine ⟨[.item "constraints".toList p], hlisted.tight, fun separator => ?_,
      fun m' hhas hnone => ?_⟩
    · have hitem : (Phrase.item "constraints".toList p).text =
          Model.item "constraints".toList p.text := rfl
      rw [List.flatMap_singleton, hitem, htext,
        sections_bounds (fun b hb => (h b hb).1.own) (List.cons_ne_nil _ _)]
    · have hassign : ∀ op, Item.assignment? ((Phrase.item "constraints".toList p).tree op) =
          some ("constraints".toList, p.tree ['=']) := Phrase.assignment?_item _ _
      refine .cons ⟨fun op => ⟨_, _, hassign op, .inr rfl⟩, Model.attributes_withBounds _ _,
        fun depth op => ?_⟩ (.nil _)
      rw [addCondition_of_constraints (hassign op)]
      exact hread depth ['='] m' hhas hnone

theorem sections_append (separator : Char) (ties : List Tie) (bounds : List Bound) :
    Model.sections separator ties bounds =
      Model.sections separator ties [] ++ Model.sections separator [] bounds := by
  rw [Model.sections, Model.sections, Model.sections]
  exact congrArg (· ++ _) (List.append_nil _).symm

/-- The items for the ties and the bounds of a model. -/
theorem exists_sections (hm : m.Sound) (hl : m.Throughout Model.Legible) :
    ∃ items : List Phrase, (∀ p ∈ items, p.Tight 2 ∧ p.rank ≠ 0) ∧
      (∀ separator, items.flatMap (fun p => separator :: p.text) =
        Model.sections separator m.ties m.bounds) ∧
      ∀ m', (∀ name, m'.hasParameter name = m.hasParameter name) → m'.ties = [] → m'.bounds = [] →
        Attach items m' ((m'.withTies (m.ties.map Tie.canonical)).withBounds m.bounds) := by
  obtain ⟨ties, htight, htext, hread⟩ :=
    exists_tie_items (fun tie htie => hm.legible_tie hl htie) hm.attached.distinctTies
  have hbounds : ∀ b ∈ m.bounds, b.Stated ∧ Qualified.Spelling Unbroken b.parameter ∧
      ∀ x ∈ b.numbers, Number.read? (Number.plain x) = some x := by
    intro b hb
    obtain ⟨hhas, hstated⟩ := hm.attached.bounds b hb
    refine ⟨hstated, (hm.spelling hl hhas).unbroken, fun x hx => hl.own.numbers x ?_⟩
    exact List.mem_append_left _ (List.mem_append_right _ (List.mem_flatMap.2 ⟨b, hb, hx⟩))
  obtain ⟨bounds, htight', htext', hread'⟩ := exists_bound_items hbounds hm.attached.distinctBounds
  refine ⟨ties ++ bounds, fun p hp => (List.mem_append.1 hp).elim (htight p) (htight' p),
    fun separator => ?_, fun m' hhas hties hnone => ?_⟩
  · rw [List.flatMap_append, htext, htext', ← sections_append]
  · refine (hread m' hhas hties).append (hread' _ (fun b hb => ?_) ?_)
    · rw [Model.hasParameter_withTies, hhas]
      exact (hm.attached.bounds b hb).1
    · rw [Model.bounds_withTies, hnone]

/-- Items for ties and bounds do to a function what they do as lists of a composite. -/
theorem Attach.reads (h : Attach items m m')
    (hfree : m.hasAttribute "ties".toList = false ∧ m.hasAttribute "constraints".toList = false)
    (s : Parents) : Reads items m s m' s := by
  induction h with
  | nil m => exact .nil m s
  | @cons p items m m' m'' hp _ ih =>
    have hfree' := ih (by rwa [Model.hasAttribute, Model.hasAttribute, hp.attributes])
    refine .cons (fun depth => ?_) hfree'
    obtain ⟨key, value, hassign, rfl | rfl⟩ := hp.key [',']
    · have hgives := hp.gives depth [',']
      rw [addCondition_of_ties hassign] at hgives
      rw [readItem, hassign]
      dsimp only
      rw [readAssignment, hfree.1]
      exact .change hgives
    · have hgives := hp.gives depth [',']
      rw [addCondition_of_constraints hassign] at hgives
      rw [readItem, hassign]
      dsimp only
      rw [readAssignment, hfree.2]
      exact .change hgives

theorem Attach.attributes_eq (h : Attach items m m') : m'.attributes = m.attributes := by
  induction h with
  | nil => rfl
  | cons hp _ ih => exact ih.trans hp.attributes

/-- Phrases write the ties and bounds of the model `m`, and what they make of `start` is complete. -/
structure Completes (items : List Phrase) (m start new : Model) : Prop where
  tight : ∀ p ∈ items, p.Tight 2 ∧ p.rank ≠ 0
  text : ∀ separator, items.flatMap (fun p => separator :: p.text) =
    Model.sections separator m.ties m.bounds
  attach : Attach items start new
  ties : new.applyTies = (new, none)

theorem Completes.nil {start : Model} (hties : m.ties = []) (hbounds : m.bounds = [])
    (h : start.applyTies = (start, none)) : Completes [] m start start where
  tight := nofun
  text _ := by
    rw [hties, hbounds]
    rfl
  attach := .nil start
  ties := h

theorem exists_completes {start : Model} (hm : m.Sound) (hl : m.Throughout Model.Legible)
    (hstart : ∀ name, start.hasParameter name = m.hasParameter name) (hties : start.ties = [])
    (hbounds : start.bounds = [])
    (hnew : (start.withTies (m.ties.map Tie.canonical)).withBounds m.bounds = m.canonical) :
    ∃ items, Completes items m start m.canonical := by
  obtain ⟨items, htight, htext, hattach⟩ := exists_sections hm hl
  exact ⟨items, htight, htext, hnew ▸ hattach start hstart hties hbounds, hm.applyTies_canonical hl⟩

/-! ## What is sent up -/

/-- Attributes on their way up from which slots are read. -/
def SentAs (slots : Slots) (sent : Parents) : Prop :=
  List.Forall₂ (fun slot p => p.1 = slot.1 ∧
    ∀ (name : Text) (old : Attribute), old.type = slot.2.type → old.reread name p.2 = .ok slot.2)
    slots sent

theorem put_of_new {attr value : Text} {s : Parents} (h : attr ∉ Named.names s) :
    s.put attr value = s ++ [(attr, value)] := by
  rw [Named.put, if_neg]
  exact fun hhas => h (Named.has_iff_mem_names.1 hhas)

theorem gives_sendUp {attr : Text} {s : Parents} (h : attr ∉ Named.names s) (depth : Nat)
    (value : Expr) : Act.Gives ((builtin depth).sendUp attr value) s ()
      (s ++ [(attr, Item.unquote value.text)]) := by
  rw [← put_of_new h]
  exact .bind Act.gives_state Act.gives_put

/-- Items for what an enclosing composite keeps are sent up, among the items of a function and behind
a composite in brackets. -/
theorem exists_sent {slots : Slots} (hitems : slots.WrittenBy ['$'] items) :
    ∃ sent, SentAs slots sent ∧ ∀ s, (Named.names s ++ Named.names slots).Nodup →
      (∀ m : Model, m.Unmarked → Reads items m s m (s ++ sent)) ∧
      ∀ depth, Act.Gives ((builtin depth).readTrailing (items.map (·.tree [',']))) s ()
        (s ++ sent) := by
  induction hitems with
  | nil =>
    refine ⟨[], List.Forall₂.nil, fun s _ => ?_⟩
    rw [List.append_nil]
    exact ⟨fun m _ => .nil m s, fun _ => Act.gives_pure⟩
  | @cons slot p slots items hp _ ih =>
    obtain ⟨attr, value⟩ := slot
    obtain ⟨v, hv, rfl⟩ := hp
    obtain ⟨sent, hsent, hread⟩ := ih
    have hkey : Key.ofText (['$'] ++ attr) = .parent attr := ofText_eq_parent.2 rfl
    refine ⟨(attr, Item.unquote (v.tree ['=']).text) :: sent, List.Forall₂.cons ⟨rfl, ?_⟩ hsent, ?_⟩
    · exact fun name old => hv.reread name ['='] old
    intro s hnodup
    have hnew : attr ∉ Named.names s := by
      intro hmem
      exact (List.nodup_append.1 hnodup).2.2 attr hmem attr List.mem_cons_self rfl
    obtain ⟨hreads, htrailing⟩ := hread (s ++ [(attr, Item.unquote (v.tree ['=']).text)]) (by
      rw [Named.names, List.map_append, List.append_assoc]
      exact hnodup)
    rw [List.append_assoc] at hreads htrailing
    refine ⟨fun m hm => .cons (fun depth => ?_) (hreads m hm), fun depth => ?_⟩
    · rw [readItem_item, readAssignment, List.singleton_append, hasAttribute_marked hm]
      rw [List.singleton_append] at hkey
      rw [hkey]
      exact .bind (gives_sendUp hnew depth _) Act.gives_pure
    · rw [List.map_cons, readTrailing, Phrase.assignment?_item]
      dsimp only
      rw [hkey]
      exact .bind (gives_sendUp hnew depth _) (htrailing depth)

end Reader

/-! ## Whole curves -/

theorem Shape.dotted_name (shape : Shape) : isDotted shape.name = true := by
  cases shape <;> decide

theorem Shape.word_name (shape : Shape) : Word false shape.name :=
  .of_dotted shape.dotted_name

theorem Attribute.renumbered_eq {value : Attribute}
    (h : ∀ x ∈ value.numbers, Number.reread x = x) : value.renumbered = value := by
  cases value with
  | double x => exact congrArg double (h x (List.mem_singleton_self x))
  | vector xs => exact congrArg vector ((List.map_congr_left h).trans (List.map_id xs))
  | int n | bool b | string s => rfl

namespace Curve

variable {c : Curve}

theorem Configured.int_attribute (h : c.Configured) {name : Text} {n : Int}
    (hn : (name, .int n) ∈ c.attributes) : 0 ≤ n ∧ n ≤ maxDegree := by
  unfold Configured at h
  split at h
  · obtain ⟨k, hk, hattributes, -⟩ := h
    rw [hattributes] at hn
    cases List.mem_singleton.1 hn
    exact ⟨Int.natCast_nonneg k, hk⟩
  · obtain ⟨k, start, stop, hk, hattributes, -⟩ := h
    rw [hattributes] at hn
    simp only [List.mem_cons, Prod.mk.injEq, Attribute.int.injEq, reduceCtorEq, and_false,
      List.not_mem_nil, or_false] at hn
    exact hn.2 ▸ ⟨Int.natCast_nonneg k, hk⟩
  · obtain ⟨s, -, hattributes, -⟩ := h
    rw [hattributes] at hn
    cases List.mem_singleton.1 hn
  · obtain ⟨xs, ys, hattributes, -⟩ := h
    rw [hattributes] at hn
    simp at hn
  · rw [h.1] at hn
    cases hn

/-- The attributes of a curve can be told in its text. -/
theorem Configured.tellable (h : c.Configured)
    (hquote : ∀ slot ∈ c.attributes, slot.2.hasQuote = false) :
    ∀ slot ∈ c.attributes, slot.2.Tellable := by
  rintro ⟨name, value⟩ hslot
  cases value with
  | int n =>
    obtain ⟨hn, hmax⟩ := h.int_attribute hslot
    refine ⟨hn, ?_⟩
    have hlarge : 2 * maxDegree < Whole.wordCount := by decide
    omega
  | string s =>
    refine ⟨h.trimmed hslot, fun hmem => ?_⟩
    have hfree : s.contains '"' = false := hquote _ hslot
    rw [List.contains_iff_mem.2 hmem] at hfree
    cases hfree
  | double x | bool b | vector xs => trivial

/-- The curve with the numbers that are read from the texts of its numbers. -/
def renumbered (c : Curve) : Curve :=
  { c with
    attributes := c.attributes.renumbered
    parameters := c.parameters.map fun p => (p.1, Number.reread p.2) }

theorem names_renumbered (c : Curve) :
    Named.names c.renumbered.parameters = Named.names c.parameters := List.map_map

/-- What an attribute asks for does not depend on the numbers of a curve. -/
theorem Configured.renumbered (h : c.Configured) : c.renumbered.Configured := by
  have hnames := c.names_renumbered
  have hattributes : c.renumbered.attributes = c.attributes.renumbered := rfl
  unfold Configured at h ⊢
  rw [hnames, hattributes, show c.renumbered.shape = c.shape from rfl,
    show c.renumbered.formula? = c.formula? from rfl]
  split at h
  · obtain ⟨n, hn, ha, hrest⟩ := h
    exact ⟨n, hn, by rw [ha]; rfl, hrest⟩
  · obtain ⟨n, start, stop, hn, ha, hrest⟩ := h
    exact ⟨n, _, _, hn, by rw [ha]; rfl, hrest⟩
  · obtain ⟨s, hs, ha, hrest⟩ := h
    refine ⟨s, hs, by rw [ha]; rfl, hrest.imp_left fun hblank => ⟨hblank.1, hblank.2.1, ?_⟩⟩
    rw [Curve.renumbered, hblank.2.2]
    rfl
  · obtain ⟨xs, ys, ha, hrest⟩ := h
    exact ⟨_, _, by rw [ha]; rfl, hrest⟩
  · refine ⟨by rw [h.1]; rfl, h.2⟩

theorem renumbered_eq (hattributes : ∀ slot ∈ c.attributes, slot.2.renumbered = slot.2)
    (hparameters : ∀ p ∈ c.parameters, Number.reread p.2 = p.2) : c.renumbered = c := by
  have hvalue : ∀ p ∈ c.parameters, (p.1, Number.reread p.2) = p :=
    fun p hp => Prod.ext rfl (hparameters p hp)
  have hvalues := (List.map_congr_left hvalue).trans (List.map_id c.parameters)
  rw [renumbered, Slots.renumbered_eq hattributes, hvalues]

end Curve

theorem Catalogue.create_shape (shape : Shape) :
    builtin.create shape.name = .ok (.ofShape shape) := by
  cases shape <;> rfl

namespace Reader

variable {c : Curve}

theorem listed_parameters {values : Named Float} (h : ∀ p ∈ values, Word false p.1) :
    Phrase.Listed (values.map fun p => .item p.1 (Number.phrase (Number.plain p.2)))
      (values.flatMap fun p => ',' :: Model.item p.1 (Number.plain p.2)) := by
  induction values with
  | nil => exact .nil
  | cons p values ih =>
    obtain ⟨hvalid, htext, hrank, -⟩ := Number.phrase_spec (Number.read?_plain p.2)
    have hall := (Phrase.Listed.item (h p List.mem_cons_self) ⟨hvalid, .inl hrank⟩).append
      (ih fun p hp => h p (List.mem_cons_of_mem _ hp))
    rwa [htext] at hall

/-- The items of a curve behind its name, and how they are read. -/
theorem exists_curve_items (hc : c.Configured)
    (hquote : ∀ slot ∈ c.attributes, slot.2.hasQuote = false)
    (hnames : ∀ name ∈ (Model.curve c).userParameters, Text.isParameterKey name = true)
    {sections : List Phrase} {m : Model} (hsections : Completes sections (.curve c)
      (.curve { c.renumbered with ties := [], bounds := [] }) m) :
    ∃ items text, Phrase.Listed items text ∧
      Model.curveText c = Model.item "name".toList c.shape.name ++ text ∧
      ∀ s, Reads items (.ofShape c.shape) s m s := by
  obtain ⟨attributes, hattributes, hlisted⟩ := Slots.exists_items []
    (fun slot hslot => .of_dotted (hc.attribute_keys (List.mem_map_of_mem hslot)).1)
    (hc.tellable hquote)
  have hkeys : ∀ name ∈ Named.names c.parameters,
      Curve.ParameterKey (Named.names c.renumbered.attributes) name := by
    rw [show Named.names c.renumbered.attributes = _ from Slots.names_renumbered c.attributes]
    refine hc.parameterKey fun huser name hname => hnames name ?_
    rw [Model.userParameters, if_pos huser]
    exact hname
  have hparameters := listed_parameters fun p hp => Word.of_dotted
    (isDotted_of_isSegment (hkeys p.1 (List.mem_map_of_mem hp)).segment)
  refine ⟨_, _, (hlisted.append hparameters).append ⟨hsections.tight, hsections.text ','⟩, ?_,
    fun s => ?_⟩
  · rw [Model.curveText, List.append_assoc, List.append_assoc, List.append_assoc]
    rfl
  have hc' := hc.renumbered
  obtain ⟨c₁, hblank, hattributes₁, hread⟩ := exists_reads_attributes hc'
    (Curve.blank_ofShape c.renumbered) (fun slot hslot => hslot) hattributes s
  have heq : c₁.attributes = c.renumbered.attributes :=
    hattributes₁.trans (Named.setAll_eq hc'.attribute_names.symm hc'.nodup_attributes)
  have hnames' := (hc'.congr_attributes hblank.configured hblank.shape heq).1.trans c.names_renumbered
  have hread' := reads_parameters c.parameters (fun p hp =>
    ⟨heq ▸ hkeys p.1 (List.mem_map_of_mem hp), hnames' ▸ List.mem_map_of_mem hp⟩) s
  rw [show c.parameters.map (fun p => (p.1, Number.reread p.2)) = c.renumbered.parameters from rfl,
    hc'.eq_of_blank hblank heq] at hread'
  have hfree : ∀ name : Text, (∀ other ∈ Named.names c.renumbered.attributes, other ≠ name) →
      (Model.curve { c.renumbered with ties := [], bounds := [] }).hasAttribute name = false := by
    intro name hname
    rw [Bool.eq_false_iff]
    exact fun hhas => hname name (Named.has_iff_mem_names.1 hhas) rfl
  have hread'' := hsections.attach.reads
    ⟨hfree _ fun other hother => (hc'.attribute_keys hother).2.2.1,
      hfree _ fun other hother => (hc'.attribute_keys hother).2.2.2⟩ s
  exact (hread.append hread').append hread''

theorem functionItems_chain {key : Text} {value : Phrase} (items : List Phrase)
    (hkey : Word false key) (hvalue : value.Tight 3) (op : Text) :
    ∃ o, functionItems ((Phrase.chain [','] (.item key value) items).tree op) =
      (Phrase.item key value).tree o :: items.map (·.tree [',']) := by
  by_cases hitems : items = []
  · rw [hitems]
    refine ⟨op, ?_⟩
    rw [Phrase.chain, List.foldl_nil, Phrase.tree_item]
    rfl
  · refine ⟨[], ?_⟩
    rw [Phrase.tree_chain (by decide) (Phrase.tight_item hkey hvalue (by decide)) hitems]
    rfl

/-- The phrase of a curve with what its composite keeps for it behind it. -/
theorem exists_curve (hc : c.Configured) (hquote : ∀ slot ∈ c.attributes, slot.2.hasQuote = false)
    (hnames : ∀ name ∈ (Model.curve c).userParameters, Text.isParameterKey name = true)
    {sections : List Phrase} {m : Model} (hsections : Completes sections (.curve c)
      (.curve { c.renumbered with ties := [], bounds := [] }) m)
    (slots : Slots) (hkeys : ∀ slot ∈ slots, Word false (['$'] ++ slot.1))
    (hvalues : ∀ slot ∈ slots, slot.2.Tellable) (hnodup : (Named.names slots).Nodup) :
    ∃ (p : Phrase) (sent : Parents), p.Tight 1 ∧ p.rank ≠ 0 ∧
      p.text = Model.curveText c ++ Model.slotItems ['$'] slots ∧ SentAs slots.renumbered sent ∧
      (∀ op, ∃ head items value, functionItems (p.tree op) = head :: items ∧
        Item.assignment? head = some ("name".toList, value)) ∧
      ∀ depth op, Act.Gives ((builtin depth).readFunction (p.tree op)) [] m sent := by
  obtain ⟨own, text, hlisted, htext, hown⟩ := exists_curve_items hc hquote hnames hsections
  obtain ⟨locals, hlocals, hlisted'⟩ := Slots.exists_items ['$'] hkeys hvalues
  obtain ⟨sent, hsent, hsend⟩ := exists_sent hlocals
  have hall := hlisted.append hlisted'
  have hkey : Word false "name".toList := .of_dotted (by decide)
  have hvalue : (Phrase.word c.shape.name false).Tight 3 := .word c.shape.word_name
  have hfirst := Phrase.tight_item hkey hvalue (Nat.le_refl 2)
  have htight : ∀ p ∈ Phrase.item "name".toList (.word c.shape.name false) :: (own ++ locals),
      p.Tight 2 := List.forall_mem_cons.2 ⟨hfirst, fun p hp => (hall.tight p hp).1⟩
  have hunmarked : m.Unmarked := by
    intro name hname
    rw [hsections.attach.attributes_eq] at hname
    exact (hc.renumbered.attribute_keys hname).2.1
  have hitems : Reads (own ++ locals) (.ofShape c.shape) [] m sent :=
    (hown []).append ((hsend [] (by rwa [Slots.names_renumbered])).1 _ hunmarked)
  have hrank : (Phrase.chain [','] (.item "name".toList (.word c.shape.name false))
      (own ++ locals)).rank ≠ 0 := by
    rw [Phrase.rank_chain]
    split
    · exact Phrase.rank_item_ne_zero _ _
    · decide
  refine ⟨.chain [','] (.item "name".toList (.word c.shape.name false)) (own ++ locals), sent,
    Phrase.tight_chain (by decide) (by decide) (by decide) htight, hrank, ?_, hsent, fun op => ?_,
    fun depth op => ?_⟩
  · rw [Phrase.text_chain, htext, List.append_assoc, ← hall.text]
    rfl
  · obtain ⟨o, ho⟩ := functionItems_chain (own ++ locals) hkey hvalue op
    exact ⟨_, _, _, ho, Phrase.assignment?_item _ _ o⟩
  · obtain ⟨o, ho⟩ := functionItems_chain (own ++ locals) hkey hvalue op
    have hvalid : (Phrase.chain [','] (.item "name".toList (.word c.shape.name false))
        (own ++ locals)).Valid := Phrase.valid_chain (by decide) htight fun _ _ _ => by decide
    rw [readFunction, Phrase.bracketsRemoved_tree hvalid hrank, ho]
    dsimp only
    have htype : (builtin depth).typeName?
        ((Phrase.item "name".toList (.word c.shape.name false)).tree o) = some c.shape.name := by
      rw [typeName?, Phrase.assignment?_item]
      generalize c.shape = shape
      cases shape <;> rfl
    rw [htype]
    refine .bind (Act.gives_ofModel (Catalogue.create_shape c.shape)) ?_
    refine .bind (Act.gives_note _) (.bind (hitems depth) (.change ?_))
    exact Act.gives_applyTies hsections.ties

/-- A curve that can be told is completed by the phrases of its ties and bounds. -/
theorem exists_completes_curve (h : (Model.curve c).Sound)
    (hl : (Model.curve c).Throughout Model.Legible) : ∃ items, Completes items (.curve c)
      (.curve { c.renumbered with ties := [], bounds := [] }) (Model.curve c).canonical := by
  have hnumbers : ∀ x ∈ (Model.curve c).numbers, Number.reread x = x :=
    fun x hx => Number.reread_eq (hl.own.numbers x hx)
  have heq : c.renumbered = c := by
    refine Curve.renumbered_eq (fun slot hslot => Attribute.renumbered_eq fun x hx => ?_) fun p hp => ?_
    · exact hnumbers x (List.mem_append_left _ (List.mem_append_left _ (List.mem_flatMap.2 ⟨_, hslot, hx⟩)))
    · exact hnumbers p.2 (List.mem_append_right _ (List.mem_map_of_mem hp))
  rw [heq]
  exact exists_completes h hl (fun name => rfl) rfl rfl rfl

end Reader
end Lineshape
