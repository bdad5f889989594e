import Lineshape.Proofs.Reading.Steps

/-! # Ties of models that were read

Reading a model ends with applying all its ties, so the results on applying ties hold of every model
that a text describes (`Reader.holdsAt_of_read`). The ties are applied once each, and a tie that
comes later may change what an earlier one has read. -/

namespace Lineshape.Reader
set_option autoImplicit false

variable {r : Reader}

theorem applyTies_of_endComposite {parts : List Part} {w w' : Work Model} {u : Unit}
    (h : Act.Runs (r.endComposite parts) w u w') : ∃ m : Model, m.applyTies = (w'.state, none) := by
  obtain ⟨v, -, happlied, -⟩ := runs_endComposite.1 h
  exact ⟨v.state, happlied⟩

theorem applyTies_of_readFunction {e : Expr} {m : Model} {w w' : Work Parents}
    (h : Act.Runs (r.readFunction e) w m w') : ∃ m₀ : Model, m₀.applyTies = (m, none) := by
  obtain ⟨_, _, _, _, m₁, -, -, -, -, happlied⟩ := runs_readFunction.1 h
  exact ⟨m₁, happlied⟩

theorem applyTies_of_readComposite {e : Expr} {m : Model} {w w' : Work Parents}
    (h : Act.Runs (r.readComposite e) w m w') : ∃ m₀ : Model, m₀.applyTies = (m, none) := by
  obtain ⟨o, parts, -, h⟩ := runs_readComposite.1 h
  obtain ⟨_, _, -, h⟩ := Act.runs_bind.1 h
  obtain ⟨_, _, -, h⟩ := Act.runs_bind.1 h
  obtain ⟨inner, hend, rfl, -⟩ := Act.runs_change.1 h
  exact applyTies_of_endComposite hend

theorem applyTies_of_read {s : Text} {m : Model} (h : r.read s = .ok m) :
    ∃ m₀ : Model, m₀.applyTies = (m, none) := by
  obtain ⟨tree, v, -, -, h⟩ := read_eq_ok.1 h
  rw [readTree] at h
  split at h
  · exact applyTies_of_readComposite h
  · exact applyTies_of_readFunction h

/-- In a model that was read every undisturbed tie holds; and if all ties hold, applying them once
more changes nothing. -/
theorem holdsAt_of_read {s : Text} {m : Model} (h : r.read s = .ok m) :
    (∀ before path tie later, m.schedule = before ++ (path, tie) :: later →
      m.Undisturbed path tie later → m.HoldsAt path tie) ∧
    ((∀ e ∈ m.schedule, m.HoldsAt e.1 e.2) → m.applyTies = (m, none)) := by
  obtain ⟨m₀, hm⟩ := applyTies_of_read h
  have hrun : m₀.run m₀.schedule = some m := by
    rw [Model.run_schedule, Model.completed_eq_some, hm]
  have hschedule := Model.schedule_run hrun
  refine ⟨?_, Model.applyTies_of_holdsAt⟩
  intro before path tie later hsplit hu
  rw [← hschedule, hsplit] at hrun
  exact Model.holdsAt_of_run hrun hu

/-- A sum whose own tie reads a tied parameter of a member: the member's tie stays as it is. -/
theorem holdsAt_of_read_tied_member :
    let s := "name=Gaussian,Sigma=2,ties=(Height=2*Sigma);name=FlatBackground;".toList ++
      "ties=(f1.A0=f0.Height+1)".toList
    ∃ m e later, read {} s = .ok m ∧ m.schedule = e :: later ∧ m.Undisturbed e.1 e.2 later ∧
      m.HoldsAt e.1 e.2 ∧ (∀ e ∈ m.schedule, m.HoldsAt e.1 e.2) ∧ m.applyTies = (m, none) := by
  intro s
  have hcheck : (read {} s).toOption.any (fun m => m.schedule ≠ [] ∧
      (∀ e ∈ m.schedule.head?, m.Undisturbed e.1 e.2 m.schedule.tail) ∧
      ∀ e ∈ m.schedule, m.HoldsAt e.1 e.2) = true := by
    decide +kernel
  obtain ⟨m, hread, hm⟩ := Result.exists_of_any hcheck
  obtain ⟨hne, hfirst, hall⟩ := of_decide_eq_true hm
  cases hschedule : m.schedule with
  | nil => exact absurd hschedule hne
  | cons e later =>
    rw [hschedule] at hfirst
    have hundisturbed := hfirst e rfl
    obtain ⟨hkeep, hagain⟩ := holdsAt_of_read hread
    exact ⟨m, e, later, hread, hschedule, hundisturbed,
      hkeep [] e.1 e.2 later hschedule hundisturbed, hall, hagain hall⟩

/-- A tie that a later one disturbs need not hold: the height was tied to the centre before the
centre was tied to the width. -/
theorem not_holdsAt_of_later_tie : ∃ m,
    read {} "name=Gaussian,Sigma=2,ties=(Height=PeakCentre,PeakCentre=Sigma)".toList = .ok m ∧
      ∃ e ∈ m.schedule, ¬ m.HoldsAt e.1 e.2 := by
  have hcheck : (read {} "name=Gaussian,Sigma=2,ties=(Height=PeakCentre,PeakCentre=Sigma)".toList).toOption.any
      (fun m => ∃ e ∈ m.schedule, ¬ m.HoldsAt e.1 e.2) = true := by
    decide +kernel
  obtain ⟨m, hread, hm⟩ := Result.exists_of_any hcheck
  exact ⟨m, hread, of_decide_eq_true hm⟩

end Lineshape.Reader
