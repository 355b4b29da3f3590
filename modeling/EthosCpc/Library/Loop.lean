import Mathlib.Logic.Relation

/-!
# Loops

A loop is a step that fails when the loop has ended.  A run with a bound on the
number of steps is what can be evaluated; `Reaches` is the relation to reason
with.  Since a step has one outcome, whatever a loop reaches lies on the way to
its end.
-/

namespace EthosCpc.Library.Loop

open Relation

variable {σ : Type} {step : σ → Option σ} {P : σ → Prop} {s t z : σ}

/-- At most `k` steps of a loop: its last state, if it ends within them. -/
def run (step : σ → Option σ) : Nat → σ → Option σ
  | 0, _ => none
  | k + 1, s =>
    match step s with
    | none => some s
    | some s' => run step k s'

def Reaches (step : σ → Option σ) : σ → σ → Prop := ReflTransGen fun s t => step s = some t

/-- Some steps of the loop, all from states with `P`. -/
def Runs (step : σ → Option σ) (P : σ → Prop) : σ → σ → Prop :=
  ReflTransGen fun s t => step s = some t ∧ P s

lemma Reaches.single (h : step s = some t) : Reaches step s t := ReflTransGen.single h

lemma Runs.single (h : step s = some t) (hs : P s) : Runs step P s t :=
  ReflTransGen.single ⟨h, hs⟩

lemma Runs.state_of_reaches (h : Runs step P s z) (hz : step z = none) (ht : Reaches step s t) :
    Runs step P t z := by
  induction ht with
  | refl => exact h
  | tail _ hstep ih =>
    cases ReflTransGen.cases_head ih with
    | inl heq =>
      rw [heq, hz] at hstep
      cases hstep
    | inr hnext =>
      obtain ⟨c, ⟨hc, _⟩, hrest⟩ := hnext
      rw [hc] at hstep
      cases hstep
      exact hrest

lemma Runs.holds (h : Runs step P s z) (hz : step z = none) (ht : Reaches step s t)
    (hne : step t ≠ none) : P t := by
  cases ReflTransGen.cases_head (h.state_of_reaches hz ht) with
  | inl heq => exact absurd (heq ▸ hz) hne
  | inr hnext =>
    obtain ⟨c, ⟨_, hP⟩, _⟩ := hnext
    exact hP

lemma Reaches.toRuns (h : Reaches step s t) : Runs step (fun _ => True) s t :=
  ReflTransGen.mono (fun _ _ hst => ⟨hst, trivial⟩) _ _ h

lemma run_of_reaches (h : Reaches step s z) (hz : step z = none) : ∃ k, run step k s = some z := by
  induction h using ReflTransGen.head_induction_on with
  | refl => exact ⟨1, by rw [run, hz]⟩
  | head hstep _ ih =>
    obtain ⟨k, hk⟩ := ih
    exact ⟨k + 1, by rw [run, hstep]; exact hk⟩

lemma reaches_of_run {k : Nat} (h : run step k s = some z) : Reaches step s z ∧ step z = none := by
  induction k generalizing s with
  | zero => cases h
  | succ k ih =>
    rw [run] at h
    cases hstep : step s with
    | none =>
      rw [hstep] at h
      cases h
      exact ⟨.refl, hstep⟩
    | some s' =>
      rw [hstep] at h
      obtain ⟨hreach, hend⟩ := ih h
      exact ⟨.head hstep hreach, hend⟩

lemma run_eq_of_reaches {k : Nat} {z' : σ} (h : run step k s = some z') (hz : Reaches step s z)
    (hend : step z = none) : z' = z := by
  obtain ⟨hreach, hend'⟩ := reaches_of_run h
  cases ReflTransGen.cases_head (hreach.toRuns.state_of_reaches hend' hz) with
  | inl heq => exact heq.symm
  | inr hnext =>
    obtain ⟨c, ⟨hc, _⟩, _⟩ := hnext
    rw [hend] at hc
    cases hc

lemma run_unique {k k' : Nat} {z' : σ} (h : run step k s = some z) (h' : run step k' s = some z') :
    z' = z := by
  obtain ⟨hreach, hend⟩ := reaches_of_run h
  exact run_eq_of_reaches h' hreach hend

end EthosCpc.Library.Loop
