import Mathlib.Logic.Relation

/-!
# Deterministic systems in stages

Two systems that move step by step, each in its own way, are compared in stages: from related states
both come to an end, or both get on by at least one step to related states again. `Stages.halts` says
that the one then ends with a result exactly when the other does. As neither side ever waits for the
other, no measure is needed, and systems that run on for ever are no exception.
-/

namespace ThreeAddress

open Relation (TransGen ReflTransGen)

/-- What one step of a system comes to. -/
inductive Turn (S R : Type) where
  | next (state : S)
  | done (result : R)
  | stuck

section Runs

variable {S R : Type} {step : S → Turn S R} {s t : S} {r r' : R}

def runFor (step : S → Turn S R) : (fuel : Nat) → S → Option R
  | 0, _ => none
  | fuel + 1, state =>
    match step state with
    | .next after => runFor step fuel after
    | .done result => some result
    | .stuck => none

def Halts (step : S → Turn S R) (state : S) (result : R) : Prop :=
  ∃ fuel, runFor step fuel state = some result

def Goes (step : S → Turn S R) (state after : S) : Prop := step state = .next after

theorem halts_of_done (h : step s = .done r) : Halts step s r :=
  ⟨1, by simp only [runFor, h]⟩

theorem Halts.of_goes (h : ReflTransGen (Goes step) s t) (halts : Halts step t r) :
    Halts step s r := by
  induction h using ReflTransGen.head_induction_on with
  | refl => exact halts
  | head hgoes _ ih =>
    obtain ⟨fuel, hrun⟩ := ih
    refine ⟨fuel + 1, ?_⟩
    rw [runFor, hgoes]
    exact hrun

theorem runFor_of_goes {fuel : Nat} (h : TransGen (Goes step) s t)
    (hrun : runFor step fuel s = some r) : ∃ left < fuel, runFor step left t = some r := by
  have one : ∀ {a b : S} {fuel : Nat}, Goes step a b → runFor step fuel a = some r →
      ∃ left < fuel, runFor step left b = some r := by
    intro a b fuel hgoes hrun
    cases fuel with
    | zero => cases hrun
    | succ left =>
      rw [runFor, hgoes] at hrun
      exact ⟨left, Nat.lt_succ_self left, hrun⟩
  induction h with
  | single hgoes => exact one hgoes hrun
  | tail _ hgoes ih =>
    obtain ⟨middle, hmiddle, hrun'⟩ := ih
    obtain ⟨left, hleft, hrun''⟩ := one hgoes hrun'
    exact ⟨left, Nat.lt_trans hleft hmiddle, hrun''⟩

theorem Halts.unique (h : Halts step s r) (h' : Halts step s r') : r = r' := by
  obtain ⟨fuel, hrun⟩ := h
  obtain ⟨fuel', hrun'⟩ := h'
  induction fuel generalizing s fuel' with
  | zero => cases hrun
  | succ fuel ih =>
    cases fuel' with
    | zero => cases hrun'
    | succ fuel' =>
      rw [runFor] at hrun hrun'
      cases hstep : step s with
      | next after =>
        rw [hstep] at hrun hrun'
        exact ih hrun fuel' hrun'
      | done result =>
        rw [hstep] at hrun hrun'
        exact Option.some.inj (hrun.symm.trans hrun')
      | stuck =>
        rw [hstep] at hrun
        cases hrun

end Runs

variable {S S' R R' : Type} {step : S → Turn S R} {step' : S' → Turn S' R'}
  {Rel : S → S' → Prop} {Same : R → R' → Prop}

/-- From related states both systems end, with results that belong together, or both get on. -/
def Stages (step : S → Turn S R) (step' : S' → Turn S' R') (Rel : S → S' → Prop)
    (Same : R → R' → Prop) : Prop :=
  ∀ s s', Rel s s' →
    (∃ r r', Halts step s r ∧ Halts step' s' r' ∧ Same r r') ∨
      ∃ t t', TransGen (Goes step) s t ∧ TransGen (Goes step') s' t' ∧ Rel t t'

theorem Stages.symm (h : Stages step step' Rel Same) :
    Stages step' step (fun s' s => Rel s s') (fun r' r => Same r r') := by
  intro s' s hrel
  rcases h s s' hrel with ⟨r, r', halts, halts', same⟩ | ⟨t, t', goes, goes', hrel'⟩
  · exact .inl ⟨r', r, halts', halts, same⟩
  · exact .inr ⟨t', t, goes', goes, hrel'⟩

-- By induction on the fuel of the run that is known to end.
theorem Stages.halts (h : Stages step step' Rel Same) {s : S} {s' : S'} {r : R} (hrel : Rel s s')
    (halts : Halts step s r) : ∃ r', Halts step' s' r' ∧ Same r r' := by
  obtain ⟨fuel, hrun⟩ := halts
  induction fuel using Nat.strongRecOn generalizing s s' with
  | ind fuel ih =>
    rcases h s s' hrel with ⟨r₀, r', halts, halts', same⟩ | ⟨t, t', goes, goes', hrel'⟩
    · cases halts.unique ⟨fuel, hrun⟩
      exact ⟨r', halts', same⟩
    · obtain ⟨left, hleft, hrun'⟩ := runFor_of_goes goes hrun
      obtain ⟨r', halts', same⟩ := ih left hleft hrel' hrun'
      exact ⟨r', halts'.of_goes goes'.to_reflTransGen, same⟩

theorem Stages.halts_iff {step : S → Turn S R} {step' : S' → Turn S' R}
    (h : Stages step step' Rel Eq) {s : S} {s' : S'} {r : R} (hrel : Rel s s') :
    Halts step s r ↔ Halts step' s' r := by
  constructor
  · intro halts
    obtain ⟨r', halts', rfl⟩ := h.halts hrel halts
    exact halts'
  · intro halts
    obtain ⟨r', halts', rfl⟩ := h.symm.halts hrel halts
    exact halts'

end ThreeAddress
