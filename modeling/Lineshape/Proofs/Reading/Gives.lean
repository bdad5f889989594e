import Lineshape.Proofs.Reading.Steps

/-! # What acts give

`Act.Gives act s a s'` says that an act started in the state `s` gives `a` and leaves `s'`. What is
noted on the way is left out, so acts are put together by their states alone. -/

namespace Lineshape
set_option autoImplicit false

namespace Act

variable {σ τ α β : Type}

/-- The act, started in the state `s`, gives `a` and leaves `s'`, whatever was noted before. -/
def Gives (act : Act σ α) (s : σ) (a : α) (s' : σ) : Prop :=
  ∀ journal, ∃ journal', Runs act ⟨s, journal⟩ a ⟨s', journal'⟩

variable {s s' s'' : σ} {a : α} {b : β}

theorem gives_pure : Gives (pure a : Act σ α) s a s :=
  fun journal => ⟨journal, runs_pure.2 ⟨rfl, rfl⟩⟩

theorem Gives.bind {x : Act σ α} {f : α → Act σ β} (hx : Gives x s a s') (hf : Gives (f a) s' b s'') :
    Gives (x >>= f) s b s'' := by
  intro journal
  obtain ⟨journal', hx⟩ := hx journal
  obtain ⟨journal'', hf⟩ := hf journal'
  exact ⟨journal'', runs_bind.2 ⟨a, _, hx, hf⟩⟩

theorem gives_state : Gives (state : Act σ σ) s s s :=
  fun journal => ⟨journal, runs_state.2 ⟨rfl, rfl⟩⟩

theorem gives_put : Gives (put s') s () s' := fun journal => ⟨journal, runs_put.2 rfl⟩

theorem gives_note (e : Event) : Gives (note e) s () s := fun _ => ⟨_, runs_note.2 rfl⟩

theorem gives_ofModel {result : Except ModelError α} (h : result = .ok a) :
    Gives (ofModel result) s a s := fun journal => ⟨journal, runs_ofModel.2 ⟨h, rfl⟩⟩

theorem Gives.on {act : Act τ α} {t t' : τ} (h : Gives act t a t') :
    Gives (on t act) s (a, t') s := by
  intro journal
  obtain ⟨journal', h⟩ := h journal
  exact ⟨journal', runs_on.2 ⟨_, h, rfl, rfl⟩⟩

theorem Gives.change {act : Act Model Unit} {m m' : Model} (h : Gives act m () m') :
    Gives (change m act) s m' s := by
  intro journal
  obtain ⟨journal', h⟩ := h journal
  exact ⟨journal', runs_change.2 ⟨_, h, rfl, rfl⟩⟩

/-! ## Changes of a model -/

variable {m m' : Model}

theorem gives_tie {parameter formula : Text} {t : Tie}
    (h : m.attachTie parameter formula = .ok (m', t)) : Gives (tie parameter formula) m () m' :=
  fun _ => ⟨_, runs_tie.2 ⟨t, h, rfl⟩⟩

theorem gives_applyTies (h : m.applyTies = (m', none)) : Gives applyTies m () m' :=
  fun journal => ⟨journal, runs_applyTies.2 ⟨h, rfl⟩⟩

theorem gives_addMember (new : Model) : Gives (addMember new) m () (m.addMember new) :=
  fun _ => ⟨_, runs_addMember.2 ⟨rfl, rfl⟩⟩

end Act

namespace Reader

/-- What the tree of a text gives is read from the text. -/
theorem read_eq_ok_of_gives {r : Reader} {s : Text} {tree : Expr} {m : Model} {sent : Parents}
    (hparse : Expr.parse r.operators r.depth s = .ok tree)
    (hne : tree.bracketsRemoved.isEmptyMarker = false)
    (h : Act.Gives (r.readTree tree.bracketsRemoved) [] m sent) : r.read s = .ok m := by
  obtain ⟨journal, h⟩ := h [.parsed tree]
  exact read_eq_ok.2 ⟨tree, _, hparse, hne, h⟩

end Reader
end Lineshape
