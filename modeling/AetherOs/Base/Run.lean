import Mathlib.Init

/-! # Runs of a transition system -/

namespace AetherOs.Base

variable {σ κ : Type*}

inductive Run (step : σ → κ → σ → Prop) : σ → List κ → σ → Prop
  | nil (s : σ) : Run step s [] s
  | cons {s mid s' : σ} {c : κ} {cs : List κ} :
      step s c mid → Run step mid cs s' → Run step s (c :: cs) s'

def guarded (ok : σ → κ → Prop) (step : σ → κ → σ → Prop) (s : σ) (c : κ) (s' : σ) : Prop :=
  ok s c ∧ step s c s'

namespace Run

variable {step : σ → κ → σ → Prop} {s s' : σ} {cs : List κ}

theorem append {mid : σ} {ds : List κ} (h : Run step s cs mid) (h' : Run step mid ds s') :
    Run step s (cs ++ ds) s' := by
  induction h with
  | nil => exact h'
  | cons hcall _ ih => exact .cons hcall (ih h')

theorem invariant {I : σ → Prop} (h : Run step s cs s')
    (hstep : ∀ s c s', I s → step s c s' → I s') (hs : I s) : I s' := by
  induction h with
  | nil => exact hs
  | cons hcall _ ih => exact ih (hstep _ _ _ hs hcall)

theorem simulation {τ : Type*} {R : σ → τ → Prop} {exec : τ → κ → τ} {t : τ} (h : Run step s cs s')
    (hstep : ∀ s t c s', R s t → step s c s' → R s' (exec t c)) (hs : R s t) :
    R s' (cs.foldl exec t) := by
  induction h generalizing t with
  | nil => exact hs
  | cons hcall _ ih => exact ih (hstep _ _ _ _ hs hcall)

theorem iff_of_invariant {I : σ → Prop} {step' : σ → κ → σ → Prop} (hs : I s)
    (hsame : ∀ s c s', I s → (step s c s' ↔ step' s c s')) (hkeep : ∀ s c s', I s → step s c s' → I s') :
    Run step s cs s' ↔ Run step' s cs s' := by
  constructor
  · intro h
    induction h with
    | nil => exact .nil _
    | cons hcall _ ih => exact .cons ((hsame _ _ _ hs).mp hcall) (ih (hkeep _ _ _ hs hcall))
  · intro h
    induction h with
    | nil => exact .nil _
    | cons hcall _ ih =>
      have hcall := (hsame _ _ _ hs).mpr hcall
      exact .cons hcall (ih (hkeep _ _ _ hs hcall))

theorem of_foldlM {exec : σ → κ → Option σ} (hexec : ∀ s c s', exec s c = some s' → step s c s')
    (h : cs.foldlM exec s = some s') : Run step s cs s' := by
  induction cs generalizing s with
  | nil =>
    obtain rfl : s = s' := Option.some.inj h
    exact .nil s
  | cons c cs ih =>
    obtain ⟨mid, hcall, hrest⟩ := Option.bind_eq_some_iff.mp h
    exact .cons (hexec s c mid hcall) (ih hrest)

end Run

end AetherOs.Base
