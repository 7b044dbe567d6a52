import Mathlib.Data.List.Range

/-! # Counted loops -/

namespace AetherOs.Base

section

variable {σ ε : Type*}

theorem foldl_range_invariant {f : σ → ℕ → σ} (P : ℕ → σ → Prop) {s : σ} (hinit : P 0 s)
    (hstep : ∀ k < n, ∀ t, P k t → P (k + 1) (f t k)) : P n ((List.range n).foldl f s) := by
  induction n with
  | zero => exact hinit
  | succ n ih =>
    rw [List.range_succ, List.foldl_append]
    exact hstep n (Nat.lt_succ_self n) _ (ih fun k hk => hstep k (hk.trans (Nat.lt_succ_self n)))

def outcome {τ : Type*} (fail : ε → τ) (done : σ → τ) : Except ε σ → τ
  | .ok s => done s
  | .error e => fail e

def Ends (P : σ → Prop) (Q : ε → Prop) : Except ε σ → Prop
  | .ok s => P s
  | .error e => Q e

theorem Ends.imp {P P' : σ → Prop} {Q Q' : ε → Prop} {x : Except ε σ} (h : Ends P Q x) (hok : ∀ s, P s → P' s)
    (herror : ∀ e, Q e → Q' e) : Ends P' Q' x := by
  cases x with
  | ok s => exact hok s h
  | error e => exact herror e h

theorem Ends.outcome {τ : Type*} {P : σ → Prop} {Q : ε → Prop} {R : τ → Prop} {fail : ε → τ} {done : σ → τ}
    {x : Except ε σ} (h : Ends P Q x) (hdone : ∀ s, P s → R (done s)) (hfail : ∀ e, Q e → R (fail e)) :
    R (outcome fail done x) := by
  cases x with
  | ok s => exact hdone s h
  | error e => exact hfail e h

theorem foldlM_range_outcomes {f : σ → ℕ → Except ε σ} (P : ℕ → σ → Prop) {Q : ε → Prop} {s : σ} {x : Except ε σ}
    (hinit : P 0 s) (hstep : ∀ k < n, ∀ t, P k t → Ends (P (k + 1)) Q (f t k))
    (h : (List.range n).foldlM f s = x) : Ends (P n) Q x := by
  induction n generalizing x with
  | zero =>
    subst h
    exact hinit
  | succ n ih =>
    have hrest := ih (fun k hk => hstep k (hk.trans (Nat.lt_succ_self n))) rfl
    rw [List.range_succ, List.foldlM_append] at h
    subst h
    cases hfirst : (List.range n).foldlM f s with
    | error e =>
      rw [hfirst] at hrest
      exact hrest
    | ok t =>
      rw [hfirst] at hrest
      have hlast := hstep n (Nat.lt_succ_self n) t hrest
      change Ends (P (n + 1)) Q ([n].foldlM f t)
      rw [List.foldlM_cons]
      cases hf : f t n with
      | error e =>
        rw [hf] at hlast
        exact hlast
      | ok t' =>
        rw [hf] at hlast
        exact hlast

theorem foldlM_range_ends {f : σ → ℕ → Except ε σ} {P : σ → Prop} {Q : ε → Prop} {s : σ} (hinit : P s)
    (hstep : ∀ k < n, ∀ t, P t → Ends P Q (f t k)) : Ends P Q ((List.range n).foldlM f s) :=
  foldlM_range_outcomes (fun _ => P) hinit hstep rfl

theorem foldlM_range_invariant {f : σ → ℕ → Except ε σ} (P : ℕ → σ → Prop) {s s' : σ} (hinit : P 0 s)
    (hstep : ∀ k < n, ∀ t t', P k t → f t k = .ok t' → P (k + 1) t')
    (h : (List.range n).foldlM f s = .ok s') : P n s' := by
  have hround (k : ℕ) (hk : k < n) (t : σ) (ht : P k t) : Ends (P (k + 1)) (fun _ => True) (f t k) := by
    cases hf : f t k with
    | error e => trivial
    | ok t' => exact hstep k hk t t' ht hf
  exact foldlM_range_outcomes P hinit hround h

end

/-! ## Loops with a bound on their rounds -/

section

variable {σ α : Type*} {step : σ → α ⊕ σ} {fuel fuel' : ℕ} {s : σ} {a : α}

def loop (step : σ → α ⊕ σ) : ℕ → σ → Option α
  | 0, _ => none
  | fuel + 1, s =>
    match step s with
    | .inl a => some a
    | .inr s => loop step fuel s

def Below (x y : Option α) : Prop := ∀ a, x = some a → y = some a

theorem Below.refl (x : Option α) : Below x x := fun _ h => h

theorem Below.ite {p : Prop} [Decidable p] {x y x' y' : Option α} (h : Below x y) (h' : Below x' y') :
    Below (if p then x else x') (if p then y else y') := by
  split
  · exact h
  · exact h'

theorem Below.bind {β : Type*} {x y : Option α} {f g : α → Option β} (h : Below x y) (hf : ∀ a, Below (f a) (g a)) :
    Below (x.bind f) (y.bind g) := by
  intro b hb
  obtain ⟨a, ha, hrest⟩ := Option.bind_eq_some_iff.mp hb
  exact Option.bind_eq_some_iff.mpr ⟨a, h a ha, hf a b hrest⟩

theorem loop_below_step {step step' : σ → Option α ⊕ σ} (hle : fuel ≤ fuel')
    (hstep : ∀ s, step' s = step s ∨ ∃ x y, step s = .inl x ∧ step' s = .inl y ∧ Below x y) :
    Below (loop step fuel s).join (loop step' fuel' s).join := by
  intro a h
  induction fuel generalizing s fuel' with
  | zero => cases h
  | succ fuel ih =>
    obtain ⟨k, rfl⟩ : ∃ k, fuel' = k + 1 := ⟨fuel' - 1, by omega⟩
    rw [loop] at h ⊢
    rcases hstep s with heq | ⟨x, y, hx, hy, hxy⟩
    · rw [heq]
      split at h
      · exact h
      · exact ih (by omega) h
    · rw [hx] at h
      rw [hy]
      exact hxy a h

theorem loop_below (hle : fuel ≤ fuel') : Below (loop step fuel s) (loop step fuel' s) := by
  intro a h
  induction fuel generalizing s fuel' with
  | zero => cases h
  | succ fuel ih =>
    obtain ⟨k, rfl⟩ : ∃ k, fuel' = k + 1 := ⟨fuel' - 1, by omega⟩
    rw [loop] at h ⊢
    split at h
    · exact h
    · exact ih (by omega) h

theorem loop_rule {I : σ → Prop} {Q : α → Prop} (variant : σ → ℕ) (hfuel : variant s < fuel) (hs : I s)
    (hstep : ∀ s, I s → (∃ a, step s = .inl a ∧ Q a) ∨ ∃ s', step s = .inr s' ∧ I s' ∧ variant s' < variant s) :
    ∃ a, loop step fuel s = some a ∧ Q a := by
  induction fuel generalizing s with
  | zero => omega
  | succ fuel ih =>
    rw [loop]
    rcases hstep s hs with ⟨a, ha, hq⟩ | ⟨s', hs', hinv, hlt⟩
    · exact ⟨a, by rw [ha], hq⟩
    · rw [hs']
      exact ih (by omega) hinv

theorem loop_stalled (h : step s = .inr s) (fuel : ℕ) : loop step fuel s = none := by
  induction fuel with
  | zero => rfl
  | succ fuel ih => simpa only [loop, h] using ih

theorem loop_next {s' : σ} (h : step s = .inr s') (fuel : ℕ) : loop step (fuel + 1) s = loop step fuel s' := by
  simp only [loop, h]

end

/-! ## Search in a table -/

section

variable {α : Type*} {p : α → Bool} {f : ℕ → α} {steps a i : ℕ}

def search (p : α → Bool) (f : ℕ → α) : ℕ → ℕ → Option ℕ
  | 0, _ => none
  | steps + 1, i => if p (f i) then some i else search p f steps (i + 1)

theorem search_some (h : search p f steps a = some i) :
    a ≤ i ∧ i < a + steps ∧ p (f i) ∧ ∀ j, a ≤ j → j < i → p (f j) = false := by
  induction steps generalizing a with
  | zero => cases h
  | succ steps ih =>
    rw [search] at h
    split_ifs at h with hp
    · obtain rfl := Option.some.inj h
      exact ⟨Nat.le_refl a, by omega, hp, fun j hj hlt => by omega⟩
    · obtain ⟨hle, hlt, hi, hbefore⟩ := ih h
      refine ⟨by omega, by omega, hi, fun j hj hji => ?_⟩
      rcases Nat.eq_or_lt_of_le hj with rfl | hlater
      · exact Bool.eq_false_iff.mpr hp
      · exact hbefore j hlater hji

theorem search_none (h : search p f steps a = none) (ha : a ≤ i) (hi : i < a + steps) :
    p (f i) = false := by
  induction steps generalizing a with
  | zero => omega
  | succ steps ih =>
    rw [search] at h
    split at h
    · cases h
    · rename_i hp
      rcases Nat.eq_or_lt_of_le ha with rfl | hlater
      · exact Bool.eq_false_iff.mpr hp
      · exact ih h hlater (by omega)

theorem search_congr {g : ℕ → α} (h : ∀ j, p (g j) = p (f j)) : search p g steps a = search p f steps a := by
  induction steps generalizing a with
  | zero => rfl
  | succ steps ih => rw [search, search, h, ih]

theorem search_add {m : ℕ} : search p f (steps + m) a =
    match search p f steps a with
    | some i => some i
    | none => search p f m (a + steps) := by
  induction steps generalizing a with
  | zero => rw [Nat.zero_add]; rfl
  | succ steps ih =>
    rw [Nat.succ_add, search, search]
    split
    · rfl
    · rw [ih, Nat.succ_add_eq_add_succ]

theorem search_shift {k : ℕ} {g : ℕ → α} (h : ∀ j, a ≤ j → j < a + steps → p (g j) = p (f (k + j))) :
    search p f steps (k + a) = (search p g steps a).map (k + ·) := by
  induction steps generalizing a with
  | zero => rfl
  | succ steps ih =>
    rw [search, search, h a (Nat.le_refl a) (by omega)]
    split
    · rfl
    · exact ih (a := a + 1) fun j hj hlt => h j (by omega) (by omega)

end

end AetherOs.Base
