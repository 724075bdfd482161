import Mathlib.Order.Defs.Unbundled

/-!
# Procedures with state and errors

Inversion and specification rules for `EStateM`. An error keeps the state that was
reached, so a specification speaks about both ends: `Spec m s Q E` says that `m` from
`s` returns only in `Q` and fails only in `E`.
-/

namespace EStateM

variable {ε σ α β : Type}

/-- Runs a computation and hands its error over as a value. -/
def observe (m : EStateM ε σ α) : EStateM ε σ (Except ε α) := fun s =>
  match m s with
  | .ok a s' => .ok (.ok a) s'
  | .error e s' => .ok (.error e) s'

def Spec (m : EStateM ε σ α) (s : σ) (Q : α → σ → Prop) (E : ε → σ → Prop) : Prop :=
  match m s with
  | .ok a s' => Q a s'
  | .error e s' => E e s'

instance (m : EStateM ε σ α) (s : σ) (Q : α → σ → Prop) (E : ε → σ → Prop)
    [∀ a s', Decidable (Q a s')] [∀ e s', Decidable (E e s')] : Decidable (Spec m s Q E) :=
  match h : m s with
  | .ok a s' => decidable_of_iff (Q a s') (by simp [Spec, h])
  | .error e s' => decidable_of_iff (E e s') (by simp [Spec, h])

variable {m : EStateM ε σ α} {s : σ} {Q Q' : α → σ → Prop} {E E' : ε → σ → Prop}

variable {a : α} {s' : σ}

theorem Spec.of_ok (h : Spec m s Q E) (hm : m s = .ok a s') : Q a s' := by
  simpa [Spec, hm] using h

variable {m' : EStateM ε σ α} {e : ε} {b : β}

theorem Spec.of_error (h : Spec m s Q E) (hm : m s = .error e s') : E e s' := by
  simpa [Spec, hm] using h

theorem spec_iff_of_ok (hm : m s = .ok a s') : Spec m s Q E ↔ Q a s' := by
  simp [Spec, hm]

theorem Spec.intro (hok : ∀ a s', m s = .ok a s' → Q a s')
    (herror : ∀ e s', m s = .error e s' → E e s') : Spec m s Q E := by
  unfold Spec
  cases h : m s with
  | ok a s' => exact hok a s' h
  | error e s' => exact herror e s' h

theorem Spec.returns (h : Spec m s Q fun _ _ => False) : ∃ a s', m s = .ok a s' ∧ Q a s' := by
  cases hm : m s with
  | ok a s' => exact ⟨a, s', rfl, h.of_ok hm⟩
  | error e s' => exact (h.of_error hm).elim

theorem Spec.mono (h : Spec m s Q E) (hQ : ∀ a s', Q a s' → Q' a s')
    (hE : ∀ e s', E e s' → E' e s') : Spec m s Q' E' :=
  Spec.intro (fun a s' hm => hQ a s' (h.of_ok hm)) fun e s' hm => hE e s' (h.of_error hm)

theorem Spec.and (h : Spec m s Q E) (h' : Spec m s Q' E') :
    Spec m s (fun a s' => Q a s' ∧ Q' a s') (fun e s' => E e s' ∧ E' e s') :=
  Spec.intro (fun _ _ hm => ⟨h.of_ok hm, h'.of_ok hm⟩)
    fun _ _ hm => ⟨h.of_error hm, h'.of_error hm⟩

/-- `m` from `s` comes to its end in `s'`, by a value or by an error. -/
def Ends (m : EStateM ε σ α) (s s' : σ) : Prop :=
  (∃ a, m s = .ok a s') ∨ ∃ e, m s = .error e s'

@[simp] theorem spec_pure : Spec (pure a) s Q E ↔ Q a s := Iff.rfl

@[simp] theorem spec_throw : Spec (throw e : EStateM ε σ α) s Q E ↔ E e s := Iff.rfl

@[simp] theorem spec_bind {f : α → EStateM ε σ β} {R : β → σ → Prop} :
    Spec (m >>= f) s R E ↔ Spec m s (fun a s' => Spec (f a) s' R E) E := by
  unfold Spec
  simp only [bind, EStateM.bind]
  cases m s <;> rfl

@[simp] theorem spec_get {R : σ → σ → Prop} : Spec (get : EStateM ε σ σ) s R E ↔ R s s := Iff.rfl

@[simp] theorem spec_set {t : σ} {R : PUnit → σ → Prop} :
    Spec (set t : EStateM ε σ PUnit) s R E ↔ R ⟨⟩ t := Iff.rfl

@[simp] theorem spec_modify {f : σ → σ} {R : PUnit → σ → Prop} :
    Spec (modify f : EStateM ε σ PUnit) s R E ↔ R ⟨⟩ (f s) := Iff.rfl

@[simp] theorem spec_modifyGet {g : σ → α × σ} :
    Spec (modifyGet g : EStateM ε σ α) s Q E ↔ Q (g s).1 (g s).2 := Iff.rfl

@[simp] theorem spec_observe {R : Except ε α → σ → Prop} :
    Spec (observe m) s R E ↔ Spec m s (fun a s' => R (.ok a) s') (fun e s' => R (.error e) s') := by
  unfold Spec observe
  cases m s <;> rfl

variable {p : Prop}

theorem spec_ite [Decidable p] :
    Spec (if p then m else m') s Q E ↔ (p → Spec m s Q E) ∧ (¬p → Spec m' s Q E) := by
  by_cases h : p <;> simp [h]

variable {l : List α}

/-- `m` from `s` returns only in `Q`; nothing is said of where it fails. -/
def Returns (m : EStateM ε σ α) (s : σ) (Q : α → σ → Prop) : Prop :=
  Spec m s Q fun _ _ => True

theorem returns_pure (h : Q a s) : Returns (pure a : EStateM ε σ α) s Q :=
  spec_pure.mpr h

theorem returns_throw : Returns (throw e : EStateM ε σ α) s Q :=
  spec_throw.mpr trivial

theorem Returns.mono (h : Returns m s Q) (hQ : ∀ a s', Q a s' → Q' a s') : Returns m s Q' :=
  Spec.mono h hQ fun _ _ h => h

theorem Returns.bind {f : α → EStateM ε σ β} {Q' : β → σ → Prop} (hm : Returns m s Q)
    (hf : ∀ a s', Q a s' → Returns (f a) s' Q') : Returns (m >>= f) s Q' :=
  spec_bind.mpr (Spec.mono hm hf fun _ _ h => h)

/-- The rule for a first part that matters only by where it goes on. -/
theorem Returns.of_bind {f : α → EStateM ε σ β} {Q' : β → σ → Prop}
    (hf : ∀ a s', Returns (f a) s' Q') : Returns (m >>= f) s Q' :=
  Returns.bind (Spec.intro (fun _ _ _ => trivial) fun _ _ _ => trivial : Returns m s fun _ _ =>
    True)
    fun a s' _ => hf a s'

/-- Loop rule with an accumulator, the invariant reading the part already processed. -/
theorem Returns.foldlM {I : List α → β → σ → Prop} {f : β → α → EStateM ε σ β} (hstart : I [] b s)
    (hround : ∀ l₁ a l₂ b s, l = l₁ ++ a :: l₂ → I l₁ b s →
      Returns (f b a) s fun b' s' => I (l₁ ++ [a]) b' s') :
    Returns (l.foldlM f b) s fun b' s' => I l b' s' := by
  have hrest : ∀ (l₂ l₁ : List α) (b : β) (s : σ), l = l₁ ++ l₂ → I l₁ b s →
      Returns (l₂.foldlM f b) s fun b' s' => I l b' s' := by
    intro l₂
    induction l₂ with
    | nil =>
      intro l₁ b s hl hI
      rw [List.append_nil] at hl
      exact returns_pure (hl ▸ hI)
    | cons a l₂ ih =>
      intro l₁ b s hl hI
      rw [List.foldlM_cons]
      refine (hround l₁ a l₂ b s hl hI).bind fun b' s' hI' => ?_
      exact ih (l₁ ++ [a]) b' s' (by simp [hl]) hI'
  exact hrest l [] b s rfl hstart

/-- Wherever `m` ends, by a value or an error, its end is related to its start. -/
def Tracks (R : σ → σ → Prop) (m : EStateM ε σ α) : Prop :=
  ∀ s, Spec m s (fun _ s' => R s s') fun _ s' => R s s'

variable {R : σ → σ → Prop} {f : α → EStateM ε σ β}

theorem Tracks.of_ends (h : Tracks R m) (hm : Ends m s s') : R s s' := by
  rcases hm with ⟨a, hm⟩ | ⟨e, hm⟩
  · exact (h s).of_ok hm
  · exact (h s).of_error hm

theorem Tracks.of_ok (h : Tracks R m) (hm : m s = .ok a s') : R s s' :=
  (h s).of_ok hm

theorem Tracks.returns (h : Tracks R m) : Returns m s fun _ s' => R s s' :=
  (h s).mono (fun _ _ h => h) fun _ _ _ => trivial

theorem tracks_modify {g : σ → σ} (h : ∀ s, R s (g s)) :
    Tracks R (modify g : EStateM ε σ PUnit) :=
  fun s => spec_modify.mpr (h s)

theorem Tracks.observe (hm : Tracks R m) : Tracks R (observe m) := by
  intro s
  rw [spec_observe]
  exact hm s

theorem Tracks.ite [Decidable p] (hm : Tracks R m) (hm' : Tracks R m') :
    Tracks R (if p then m else m') := by
  by_cases h : p
  · rwa [if_pos h]
  · rwa [if_neg h]

section Preorder

variable [IsPreorder σ R]

theorem tracks_pure (a : α) : Tracks R (pure a : EStateM ε σ α) :=
  fun s => spec_pure.mpr (refl_of R s)

theorem tracks_throw (e : ε) : Tracks R (throw e : EStateM ε σ α) :=
  fun s => spec_throw.mpr (refl_of R s)

theorem tracks_get : Tracks R (get : EStateM ε σ σ) :=
  fun s => spec_get.mpr (refl_of R s)

theorem Tracks.bind (hm : Tracks R m) (hf : ∀ a, Tracks R (f a)) : Tracks R (m >>= f) := by
  intro s
  rw [spec_bind]
  refine (hm s).mono (fun a s' hs' => ?_) fun _ _ h => h
  exact (hf a s').mono (fun _ _ h => trans_of R hs' h) fun _ _ h => trans_of R hs' h

variable {g : β → α → EStateM ε σ β}

theorem tracks_foldlM (h : ∀ b, ∀ a ∈ l, Tracks R (g b a)) (b : β) : Tracks R (l.foldlM g b) := by
  induction l generalizing b with
  | nil => exact tracks_pure b
  | cons a l ih =>
    rw [List.foldlM_cons]
    exact (h b a (by simp)).bind (ih fun c d hd => h c d (by simp [hd]))

theorem tracks_forM {g : α → EStateM ε σ PUnit} (h : ∀ a ∈ l, Tracks R (g a)) :
    Tracks R (l.forM g) := by
  induction l with
  | nil => exact tracks_pure PUnit.unit
  | cons a l ih =>
    show Tracks R (g a >>= fun _ => l.forM g)
    exact (h a (by simp)).bind fun _ => ih fun b hb => h b (by simp [hb])

/-- Besides, a returned value is in `P`. -/
def Yields (R : σ → σ → Prop) (P : α → Prop) (m : EStateM ε σ α) : Prop :=
  ∀ s, Spec m s (fun a s' => R s s' ∧ P a) fun _ s' => R s s'

variable {P : α → Prop} {P' : β → Prop}

theorem yields_pure (h : P a) : Yields R P (pure a : EStateM ε σ α) :=
  fun s => spec_pure.mpr ⟨refl_of R s, h⟩

theorem yields_throw (e : ε) : Yields R P (throw e : EStateM ε σ α) :=
  fun s => spec_throw.mpr (refl_of R s)

omit [IsPreorder σ R] in
theorem yields_modifyGet {g : σ → α × σ} (h : ∀ s, R s (g s).2 ∧ P (g s).1) :
    Yields R P (modifyGet g : EStateM ε σ α) :=
  fun s => spec_modifyGet.mpr (h s)

theorem Tracks.yields_bind (hm : Tracks R m) (hf : ∀ a, Yields R P' (f a)) :
    Yields R P' (m >>= f) := by
  intro s
  rw [spec_bind]
  refine (hm s).mono (fun a s' hs' => ?_) fun _ _ h => h
  exact (hf a s').mono (fun _ _ h => ⟨trans_of R hs' h.1, h.2⟩) fun _ _ h => trans_of R hs' h

theorem Yields.bind (hm : Yields R P m) (hf : ∀ a, P a → Yields R P' (f a)) :
    Yields R P' (m >>= f) := by
  intro s
  rw [spec_bind]
  refine (hm s).mono (fun a s' hs' => ?_) fun _ _ h => h
  exact (hf a hs'.2 s').mono (fun _ _ h => ⟨trans_of R hs'.1 h.1, h.2⟩)
    fun _ _ h => trans_of R hs'.1 h

theorem Yields.tracks_bind (hm : Yields R P m) (hf : ∀ a, P a → Tracks R (f a)) :
    Tracks R (m >>= f) := by
  intro s
  rw [spec_bind]
  refine (hm s).mono (fun a s' hs' => ?_) fun _ _ h => h
  exact (hf a hs'.2 s').mono (fun _ _ h => trans_of R hs'.1 h) fun _ _ h => trans_of R hs'.1 h

theorem yields_foldlM (h : ∀ b, P' b → ∀ a ∈ l, Yields R P' (g b a)) (hb : P' b) :
    Yields R P' (l.foldlM g b) := by
  induction l generalizing b with
  | nil => exact yields_pure hb
  | cons a l ih =>
    rw [List.foldlM_cons]
    exact (h b hb a (by simp)).bind fun c hc => ih (fun d hd e he => h d hd e (by simp [he])) hc

end Preorder

-- From here on only the rules above look inside a specification.
attribute [irreducible] Spec

end EStateM
