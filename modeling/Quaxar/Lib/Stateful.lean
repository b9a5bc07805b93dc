import Mathlib

/-!
# Computations with a state that survives failure

`EStateM ε σ` passes a state along and keeps the state it reached when it fails.
`wp` is the weakest precondition of such a computation, for a postcondition on its result
and one on its failure.
-/

namespace EStateM

universe u

variable {ε σ α β : Type u} {x : EStateM ε σ α} {s s' : σ}
  {Q : α → σ → Prop} {R : β → σ → Prop} {E : ε → σ → Prop}

/-- `Q` holds after a run from `s` that returns, and `E` after one that fails. -/
def wp (x : EStateM ε σ α) (Q : α → σ → Prop) (E : ε → σ → Prop) (s : σ) : Prop :=
  match x s with
  | .ok a s' => Q a s'
  | .error e s' => E e s'

variable {f : α → EStateM ε σ β} {a : α}

theorem bind_of_ok (h : x s = .ok a s') : (x >>= f) s = f a s' := by
  change EStateM.bind x f s = f a s'
  simp only [EStateM.bind, h]

variable {e : ε}

theorem bind_of_error (h : x s = .error e s') : (x >>= f) s = .error e s' := by
  change EStateM.bind x f s = .error e s'
  simp only [EStateM.bind, h]

/-- Whoever returns in the end has returned in between. -/
theorem bind_eq_ok_iff {b : β} {t : σ} :
    (x >>= f) s = .ok b t ↔ ∃ a s', x s = .ok a s' ∧ f a s' = .ok b t := by
  rcases hx : x s with ⟨a, s'⟩ | ⟨e, s'⟩
  · rw [bind_of_ok hx]
    simp
  · rw [bind_of_error hx]
    simp

theorem wp_of_ok (h : x s = .ok a s') : x.wp Q E s ↔ Q a s' := by
  simp [wp, h]

theorem wp_of_error (h : x s = .error e s') : x.wp Q E s ↔ E e s' := by
  simp [wp, h]

variable {Q' : α → σ → Prop} {E' : ε → σ → Prop}

theorem wp.mono (h : x.wp Q E s) (hQ : ∀ a s', Q a s' → Q' a s') (hE : ∀ e s', E e s' → E' e s') :
    x.wp Q' E' s := by
  rcases hx : x s with ⟨a, t⟩ | ⟨e, t⟩
  · exact (wp_of_ok hx).mpr (hQ a t ((wp_of_ok hx).mp h))
  · exact (wp_of_error hx).mpr (hE e t ((wp_of_error hx).mp h))

theorem wp.and (h : x.wp Q E s) (h' : x.wp Q' E' s) :
    x.wp (fun a t => Q a t ∧ Q' a t) (fun e t => E e t ∧ E' e t) s := by
  rcases hx : x s with ⟨a, t⟩ | ⟨e, t⟩
  · exact (wp_of_ok hx).mpr ⟨(wp_of_ok hx).mp h, (wp_of_ok hx).mp h'⟩
  · exact (wp_of_error hx).mpr ⟨(wp_of_error hx).mp h, (wp_of_error hx).mp h'⟩

theorem wp_of_forall (hQ : ∀ a t, Q a t) (hE : ∀ e t, E e t) : x.wp Q E s := by
  unfold wp
  split
  · exact hQ _ _
  · exact hE _ _

theorem wp.ok (h : x.wp Q E s) (hx : x s = .ok a s') : Q a s' :=
  (wp_of_ok hx).mp h

theorem wp.error (h : x.wp Q E s) (hx : x s = .error e s') : E e s' :=
  (wp_of_error hx).mp h

@[simp] theorem wp_pure (a : α) : (pure a : EStateM ε σ α).wp Q E s ↔ Q a s := Iff.rfl

@[simp] theorem wp_get {Q : σ → σ → Prop} : (get : EStateM ε σ σ).wp Q E s ↔ Q s s := Iff.rfl

theorem wp_bind (f : α → EStateM ε σ β) :
    (x >>= f).wp R E s ↔ x.wp (fun a t => (f a).wp R E t) E s := by
  rcases hx : x s with ⟨a, t⟩ | ⟨e, t⟩
  · rw [wp_of_ok hx, wp, wp, bind_of_ok hx]
  · rw [wp_of_error hx, wp, bind_of_error hx]

theorem wp_ite {c : Prop} [Decidable c] {y : EStateM ε σ α} :
    (if c then x else y).wp Q E s ↔ if c then x.wp Q E s else y.wp Q E s := by
  split_ifs <;> rfl

/-- A loop over a list keeps an invariant that may depend on the elements still to come. -/
theorem wp_forM {γ : Type*} (f : γ → EStateM ε σ PUnit) (I : List γ → σ → Prop)
    (hstep : ∀ c rest t, I (c :: rest) t → (f c).wp (fun _ t' => I rest t') E t)
    (l : List γ) (h : I l s) : (forM l f).wp (fun _ t => I [] t) E s := by
  induction l generalizing s with
  | nil => simpa using h
  | cons c rest ih =>
    rw [List.forM_cons, wp_bind]
    exact (hstep c rest s h).mono (fun _ t ht => ih ht) fun _ _ he => he

/-- A computation that only reads, lifted. -/
def ofExcept : Except ε α → EStateM ε σ α
  | .ok a => pure a
  | .error e => throw e

@[simp] theorem wp_ofExcept_ok (a : α) : (ofExcept (.ok a) : EStateM ε σ α).wp Q E s ↔ Q a s :=
  Iff.rfl

/-- The state that a computation leaves, whether it returns or fails. -/
def after (x : EStateM ε σ α) (s : σ) : σ :=
  match x s with
  | .ok _ s' => s'
  | .error _ s' => s'

theorem after_of_ok (h : x s = .ok a s') : x.after s = s' := by
  simp only [after, h]

end EStateM
