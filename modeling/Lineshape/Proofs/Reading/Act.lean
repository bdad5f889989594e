import Lineshape.Proofs.Result
import Lineshape.Reading.Model

/-! # Acts that succeed

`Act.Runs act w a w'` says that an act started in `w` gives `a` and leaves `w'`. Every way of putting
acts together has one equation, which takes a run apart or builds one. -/

namespace Lineshape.Act
set_option autoImplicit false

variable {σ τ α β : Type}

/-- The act, started in `w`, gives `a` and leaves `w'`. -/
def Runs (act : Act σ α) (w : Work σ) (a : α) (w' : Work σ) : Prop := act.run.run w = (.ok a, w')

variable {w w' : Work σ} {a b : α}

theorem runs_pure : Runs (pure a : Act σ α) w b w' ↔ a = b ∧ w = w' := by
  change (Except.ok a, w) = (Except.ok b, w') ↔ _
  rw [Prod.mk.injEq, Except.ok.injEq]

theorem run_bind {x : Act σ α} {f : α → Act σ β} :
    (x >>= f).run.run w = match x.run.run w with
      | (.ok a, v) => (f a).run.run v
      | (.error e, v) => (.error e, v) := by
  change (ExceptT.bindCont f (x.run.run w).1).run (x.run.run w).2 = _
  rcases x.run.run w with ⟨_ | _, v⟩ <;> rfl

theorem runs_bind {x : Act σ α} {f : α → Act σ β} {c : β} :
    Runs (x >>= f) w c w' ↔ ∃ a v, Runs x w a v ∧ Runs (f a) v c w' := by
  constructor
  · intro h
    rw [Runs, run_bind] at h
    cases hx : (x.run.run w : Except ReadError α × Work σ) with
    | mk r v =>
      rw [hx] at h
      cases r with
      | error e => cases h
      | ok a => exact ⟨a, v, hx, h⟩
  · rintro ⟨a, v, hx, hf⟩
    rw [Runs, run_bind, show x.run.run w = (.ok a, v) from hx]
    exact hf

theorem runs_throw {e : ReadError} : ¬ Runs (throw e : Act σ α) w a w' := by
  intro h
  cases h

theorem runs_state {s : σ} : Runs (state : Act σ σ) w s w' ↔ s = w.state ∧ w = w' := by
  change (Except.ok w.state, w) = (Except.ok s, w') ↔ _
  rw [Prod.mk.injEq, Except.ok.injEq]
  exact and_congr_left fun _ => eq_comm

theorem runs_put {s : σ} {u : Unit} : Runs (put s) w u w' ↔ w' = { w with state := s } := by
  change (Except.ok (), { w with state := s }) = (Except.ok u, w') ↔ _
  rw [Prod.mk.injEq]
  exact ⟨fun h => h.2.symm, fun h => ⟨rfl, h.symm⟩⟩

theorem runs_note {e : Event} {u : Unit} :
    Runs (note e : Act σ Unit) w u w' ↔ w' = { w with journal := w.journal ++ [e] } := by
  change (Except.ok (), { w with journal := w.journal ++ [e] }) = (Except.ok u, w') ↔ _
  rw [Prod.mk.injEq]
  exact ⟨fun h => h.2.symm, fun h => ⟨rfl, h.symm⟩⟩

theorem runs_ofModel {result : Except ModelError α} :
    Runs (ofModel result : Act σ α) w a w' ↔ result = .ok a ∧ w = w' := by
  cases result with
  | error e =>
    constructor
    · intro h
      exact absurd h runs_throw
    · rintro ⟨h, -⟩
      cases h
  | ok b =>
    rw [ofModel, runs_pure, Except.ok.injEq]

theorem runs_on {s : τ} {act : Act τ α} {p : α × τ} :
    Runs (on s act : Act σ (α × τ)) w p w' ↔
      ∃ v, Runs act ⟨s, w.journal⟩ p.1 v ∧ p.2 = v.state ∧ w' = { w with journal := v.journal } := by
  have hrun : (on s act : Act σ (α × τ)).run.run w =
      ((act.run.run ⟨s, w.journal⟩).1.map (·, (act.run.run ⟨s, w.journal⟩).2.state),
        { w with journal := (act.run.run ⟨s, w.journal⟩).2.journal }) := rfl
  constructor
  · intro h
    rw [Runs, hrun] at h
    cases hx : (act.run.run ⟨s, w.journal⟩ : Except ReadError α × Work τ) with
    | mk r v =>
      rw [hx] at h
      cases r with
      | error e => cases h
      | ok b =>
        cases h
        exact ⟨v, hx, rfl, rfl⟩
  · rintro ⟨v, hx, hs, rfl⟩
    obtain ⟨b, s'⟩ := p
    cases hs
    rw [Runs, hrun, show act.run.run ⟨s, w.journal⟩ = (.ok b, v) from hx]
    rfl

theorem runs_change {m m' : Model} {act : Act Model Unit} :
    Runs (change m act : Act σ Model) w m' w' ↔
      ∃ v, Runs act ⟨m, w.journal⟩ () v ∧ m' = v.state ∧ w' = { w with journal := v.journal } := by
  rw [change, runs_bind]
  constructor
  · rintro ⟨⟨u, s⟩, v, hon, hpure⟩
    obtain ⟨inner, hrun, hs, hw⟩ := runs_on.1 hon
    obtain ⟨hm, rfl⟩ := runs_pure.1 hpure
    exact ⟨inner, hrun, hm ▸ hs, hw⟩
  · rintro ⟨inner, hrun, rfl, rfl⟩
    exact ⟨((), inner.state), _, runs_on.2 ⟨inner, hrun, rfl, rfl⟩, runs_pure.2 ⟨rfl, rfl⟩⟩

end Lineshape.Act

namespace Lineshape.Reader
set_option autoImplicit false

/-- The act that reads a tree without brackets around it. -/
def readTree (r : Reader) (e : Expr) : Act Parents Model :=
  if e.form = .sequence then r.readComposite e else r.readFunction e

theorem exists_runs_readModel {r : Reader} {s : Text} {m : Model} {w : Work Unit} :
    (∃ w', Act.Runs (r.readModel s) w m w') ↔
      ∃ tree v, Expr.parse r.operators r.depth s = .ok tree ∧
        tree.bracketsRemoved.isEmptyMarker = false ∧
        Act.Runs (r.readTree tree.bracketsRemoved) ⟨[], w.journal ++ [.parsed tree]⟩ m v := by
  rw [readModel]
  cases hparse : Expr.parse r.operators r.depth s with
  | error error =>
    constructor
    · rintro ⟨w', h⟩
      exact absurd h Act.runs_throw
    · rintro ⟨tree, v, hp, -⟩
      cases hp
  | ok tree =>
    constructor
    · rintro ⟨w', h⟩
      obtain ⟨_, v, hnote, h⟩ := Act.runs_bind.1 h
      cases Act.runs_note.1 hnote
      cases hempty : tree.bracketsRemoved.isEmptyMarker with
      | true =>
        simp only [hempty, if_true] at h
        exact absurd h Act.runs_throw
      | false =>
        simp only [hempty, Bool.false_eq_true, if_false] at h
        obtain ⟨⟨m', sent⟩, v, hon, h⟩ := Act.runs_bind.1 h
        obtain ⟨v, hv, hsent, rfl⟩ := Act.runs_on.1 hon
        refine ⟨tree, v, rfl, hempty, ?_⟩
        have hm : m' = m := by
          dsimp only at h
          split at h
          · obtain ⟨_, _, -, h⟩ := Act.runs_bind.1 h
            obtain ⟨_, _, -, h⟩ := Act.runs_bind.1 h
            exact (Act.runs_pure.1 h).1
          · obtain ⟨_, _, -, h⟩ := Act.runs_bind.1 h
            exact (Act.runs_pure.1 h).1
        exact hm ▸ hv
    · rintro ⟨tree', v, hp, hempty, hv⟩
      cases hp
      have hreport : ∀ u : Work Unit, ∃ w', Act.Runs (do
          if !v.state.isEmpty then
            Act.note (.noEnclosing (Text.sortDistinct (Named.names v.state)))
          Act.note (.created m.name)
          return m : Act Unit Model) u m w' := by
        intro u
        split
        · exact ⟨_, Act.runs_bind.2 ⟨(), _, Act.runs_note.2 rfl, Act.runs_bind.2
            ⟨(), _, Act.runs_note.2 rfl, Act.runs_pure.2 ⟨rfl, rfl⟩⟩⟩⟩
        · exact ⟨_, Act.runs_bind.2 ⟨(), _, Act.runs_note.2 rfl, Act.runs_pure.2 ⟨rfl, rfl⟩⟩⟩
      obtain ⟨w', hw'⟩ := hreport ⟨w.state, v.journal⟩
      refine ⟨w', Act.runs_bind.2 ⟨(), _, Act.runs_note.2 rfl, ?_⟩⟩
      simp only [hempty, Bool.false_eq_true, if_false]
      exact Act.runs_bind.2 ⟨(m, v.state), _, Act.runs_on.2 ⟨v, hv, rfl, rfl⟩, hw'⟩

theorem read_eq_ok {r : Reader} {s : Text} {m : Model} :
    r.read s = .ok m ↔ ∃ tree v, Expr.parse r.operators r.depth s = .ok tree ∧
      tree.bracketsRemoved.isEmptyMarker = false ∧
      Act.Runs (r.readTree tree.bracketsRemoved) ⟨[], [.parsed tree]⟩ m v := by
  have hread : r.read s = ((r.readModel s).run.run ⟨(), []⟩).1 := rfl
  have hruns : r.read s = .ok m ↔ ∃ w', Act.Runs (r.readModel s) ⟨(), []⟩ m w' := by
    rw [hread]
    constructor
    · intro h
      exact ⟨_, Prod.ext h rfl⟩
    · rintro ⟨w', h⟩
      exact congrArg Prod.fst h
  exact hruns.trans exists_runs_readModel

end Lineshape.Reader
