import Mathlib.Logic.Basic

/-!
# Computations that may refuse

Inversion rules for `Except`: what a successful sequence, test or left fold says
about its parts. They replace unfolding of `do` blocks in the proofs above them.
-/

namespace Except

variable {ε α β σ : Type}
variable {x : Except ε α} {as : List α} {b : β} {a : α}

theorem bind_eq_ok {f : α → Except ε β} : x >>= f = .ok b ↔ ∃ a, x = .ok a ∧ f a = .ok b := by
  cases x with
  | error e => simp [bind, Except.bind]
  | ok a => simp [bind, Except.bind]

theorem unit_bind_eq_ok {x : Except ε Unit} {y : Except ε β} :
    x >>= (fun _ => y) = .ok b ↔ x = .ok () ∧ y = .ok b := by
  rw [bind_eq_ok]
  constructor
  · rintro ⟨⟨⟩, hx, hy⟩
    exact ⟨hx, hy⟩
  · rintro ⟨hx, hy⟩
    exact ⟨(), hx, hy⟩

theorem pure_eq_ok {b : α} : (pure a : Except ε α) = .ok b ↔ a = b := by
  simp [pure, Except.pure]

theorem map_eq_ok {f : α → β} : f <$> x = .ok b ↔ ∃ a, x = .ok a ∧ f a = b := by
  cases x <;> simp [Functor.map, Except.map]

theorem mapError_eq_ok {δ : Type} {f : ε → δ} : x.mapError f = .ok a ↔ x = .ok a := by
  cases x with
  | error => exact ⟨nofun, nofun⟩
  | ok =>
    constructor
    · intro h
      rw [ok.inj h]
    · intro h
      rw [ok.inj h]
      rfl

theorem eq_ok_get (x : Except ε α) (h : x.toOption.isSome = true) : x = .ok (x.toOption.get h) := by
  cases x with
  | error e => cases h
  | ok a => rfl

theorem forM_eq_ok {f : α → Except ε Unit} : as.forM f = .ok () ↔ ∀ a ∈ as, f a = .ok () := by
  induction as with
  | nil => simp [pure, Except.pure]
  | cons a as ih =>
    show f a >>= (fun _ => as.forM f) = .ok () ↔ _
    rw [bind_eq_ok, List.forall_mem_cons, ← ih]
    exact ⟨fun ⟨_, ha, has⟩ => ⟨ha, has⟩, fun ⟨ha, has⟩ => ⟨(), ha, has⟩⟩

theorem foldlM_nil (f : σ → α → Except ε σ) (s : σ) : [].foldlM f s = .ok s := rfl

variable {f : σ → α → Except ε σ} {s t : σ}

theorem foldlM_cons_eq_ok :
    (a :: as).foldlM f s = .ok t ↔ ∃ s', f s a = .ok s' ∧ as.foldlM f s' = .ok t := by
  rw [List.foldlM_cons, bind_eq_ok]

theorem foldlM_append_eq_ok {bs : List α} :
    (as ++ bs).foldlM f s = .ok t ↔
      ∃ s', as.foldlM f s = .ok s' ∧ bs.foldlM f s' = .ok t := by
  rw [List.foldlM_append, bind_eq_ok]

/-- Run rule: a property that every accepted step keeps holds after a whole fold. -/
theorem foldlM_induction {P : σ → Prop} (hfold : as.foldlM f s = .ok t) (hstart : P s)
    (hstep : ∀ s a s', a ∈ as → P s → f s a = .ok s' → P s') : P t := by
  induction as generalizing s with
  | nil =>
    cases hfold
    exact hstart
  | cons a as ih =>
    obtain ⟨s', hs', hrest⟩ := foldlM_cons_eq_ok.mp hfold
    apply ih hrest (hstep s a s' (by simp) hstart hs')
    intro u b u' hb
    exact hstep u b u' (by simp [hb])

section Respects

variable {ρ : Type} {view : σ → ρ}

/-- A step from states with the same view refuses alike or ends in the same view. -/
def Respects (view : σ → ρ) (step : σ → Except ε σ) : Prop :=
  ∀ s t, view s = view t → (step s).map view = (step t).map view

variable {y : Except ε σ}

theorem ok_of_map_eq {x : Except ε σ} {a : σ} (h : x.map view = y.map view) (hy : y = .ok a) :
    ∃ b, x = .ok b ∧ view b = view a := by
  subst hy
  cases x with
  | error e => cases h
  | ok b => exact ⟨b, rfl, Except.ok.inj h⟩

theorem respects_of_view {view : σ → σ} {step : σ → Except ε σ}
    (h : ∀ s, (step s).map view = (step (view s)).map view) : Respects view step := by
  intro s t hview
  rw [h s, h t, hview]

/-- After the same first computation only the rest is left to compare. -/
theorem map_bind_congr {f g : α → Except ε σ}
    (h : ∀ a, (f a).map view = (g a).map view) : (x >>= f).map view = (x >>= g).map view := by
  cases x with
  | error e => rfl
  | ok a => exact h a

/-- A test with the same outcome leaves its two branches to compare. -/
theorem map_ite_congr {p q : Prop} [Decidable p] [Decidable q] {x x' y' : Except ε σ}
    (htest : p ↔ q) (hx : x.map view = x'.map view) (hy : y.map view = y'.map view) :
    (if p then x else y).map view = (if q then x' else y').map view := by
  by_cases h : p
  · rw [if_pos h, if_pos (htest.mp h), hx]
  · rw [if_neg h, if_neg (fun hq => h (htest.mpr hq)), hy]

theorem Respects.bind {first second : σ → Except ε σ} (hfirst : Respects view first)
    (hsecond : Respects view second) : Respects view (fun s => first s >>= second) := by
  intro s t hview
  have heq := hfirst s t hview
  cases hs : first s with
  | error e =>
    cases ht : first t with
    | error e' =>
      rw [hs, ht] at heq
      cases heq
      simp [hs, ht, Except.bind, Bind.bind]
    | ok t' =>
      rw [hs, ht] at heq
      cases heq
  | ok s' =>
    obtain ⟨t', ht, hview'⟩ := ok_of_map_eq heq.symm hs
    simpa [hs, ht, Except.bind, Bind.bind] using hsecond s' t' hview'.symm

theorem Respects.comp {step : σ → Except ε σ} (h : Respects view step) {f : σ → σ}
    (hf : ∀ s t, view s = view t → view (f s) = view (f t)) :
    Respects view (fun s => step (f s)) :=
  fun s t hview => h _ _ (hf s t hview)

end Respects

end Except
