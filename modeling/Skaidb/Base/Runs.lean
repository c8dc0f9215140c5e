import Mathlib.Data.List.Basic

namespace Skaidb.Base

-- Runs of a deterministic machine: a list of actions folded over a state.
section

variable {σ α : Type*} (step : σ → α → σ) (good : σ → α → Prop)

def Along : σ → List α → Prop
  | _, [] => True
  | s, a :: as => good s a ∧ Along (step s a) as

instance Along.decidable [∀ s a, Decidable (good s a)] : ∀ s as, Decidable (Along step good s as)
  | _, [] => isTrue trivial
  | s, a :: as =>
    have := Along.decidable (step s a) as
    inferInstanceAs (Decidable (good s a ∧ Along step good (step s a) as))

variable {step good} {as : List α}

theorem Along.invariant {Inv : σ → Prop} (hstep : ∀ s a, Inv s → good s a → Inv (step s a))
    (hrun : Along step good s as) (hs : Inv s) : Inv (as.foldl step s) := by
  induction as generalizing s with
  | nil => exact hs
  | cons a as ih => exact ih hrun.2 (hstep s a hs hrun.1)

theorem Along.imp {Inv : σ → Prop} (hstep : ∀ s a, Inv s → good s a → Inv (step s a) ∧ good' s a)
    (hrun : Along step good s as) (hs : Inv s) : Along step good' s as := by
  induction as generalizing s with
  | nil => trivial
  | cons a as ih =>
    obtain ⟨hinv, hgood⟩ := hstep s a hs hrun.1
    exact ⟨hgood, ih hrun.2 hinv⟩

theorem Along.mono (himp : ∀ s a, good s a → good' s a) (hrun : Along step good s as) : Along step good' s as := by
  induction as generalizing s with
  | nil => trivial
  | cons a as ih => exact ⟨himp s a hrun.1, ih hrun.2⟩

theorem along_append : Along step good s (as ++ bs) ↔
      Along step good s as ∧ Along step good (as.foldl step s) bs := by
  induction as generalizing s with
  | nil => simp [Along]
  | cons a as ih => simp [Along, ih, and_assoc]

end

end Skaidb.Base
