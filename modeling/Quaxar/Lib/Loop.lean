import Mathlib.Tactic

/-!
# Loops with an early exit

A loop runs its body until the body returns a result or fails. The body may itself need fuel,
so that loops nest. `total` is the rule for total correctness: an invariant, a variant that
every round lowers, and what holds of the outcome of the last round.
-/

namespace Loop

variable {α σ ρ ε : Type*}

/-- Every large enough amount of fuel gives this result. -/
def Returns (f : ℕ → Option α) (a : α) : Prop := ∃ bound, ∀ fuel ≥ bound, f fuel = some a

variable {f : ℕ → Option α} {a : α}

theorem Returns.unique {b : α} (ha : Returns f a) (hb : Returns f b) : a = b := by
  obtain ⟨m, hm⟩ := ha
  obtain ⟨n, hn⟩ := hb
  have heq := hn (max m n) (le_max_right m n)
  rw [hm (max m n) (le_max_left m n)] at heq
  exact Option.some.inj heq

theorem Returns.map {β : Type*} (h : Returns f a) (g : α → β) :
    Returns (fun fuel => (f fuel).map g) (g a) := by
  obtain ⟨bound, hbound⟩ := h
  refine ⟨bound, fun fuel hfuel => ?_⟩
  dsimp only
  rw [hbound fuel hfuel, Option.map_some]

theorem returns_some (a : α) : Returns (fun _ => some a) a := ⟨0, fun _ _ => rfl⟩

/-- At most this many rounds of a loop. -/
def run (body : σ → Option (Except ε (σ ⊕ ρ))) : ℕ → σ → Option (Except ε ρ)
  | 0, _ => none
  | rounds + 1, s =>
    match body s with
    | none => none
    | some (.error e) => some (.error e)
    | some (.ok (.inl s')) => run body rounds s'
    | some (.ok (.inr r)) => some (.ok r)

variable {body : σ → Option (Except ε (σ ⊕ ρ))} {rounds : ℕ} {s : σ}

theorem run_succ_next {s' : σ} (h : body s = some (.ok (.inl s'))) :
    run body (rounds + 1) s = run body rounds s' := by
  rw [run, h]

theorem run_succ_out {out : Except ε ρ} (h : body s = some (out.map .inr)) :
    run body (rounds + 1) s = some out := by
  rw [run, h]
  cases out with
  | error e => rfl
  | ok r => rfl

/-- A loop whose body settles from some amount of fuel on. -/
theorem total (body : ℕ → σ → Option (Except ε (σ ⊕ ρ))) (bound : ℕ) (μ : σ → ℕ) (Inv : σ → Prop)
    (Post : Except ε ρ → Prop) (hround : ∀ s, Inv s →
      (∃ s', (∀ fuel ≥ bound, body fuel s = some (.ok (.inl s'))) ∧ Inv s' ∧ μ s' < μ s) ∨
      ∃ out, (∀ fuel ≥ bound, body fuel s = some (out.map .inr)) ∧ Post out) (hs : Inv s) :
    ∃ out, Post out ∧ ∀ fuel ≥ bound, ∀ rounds > μ s, run (body fuel) rounds s = some out := by
  induction hμ : μ s using Nat.strong_induction_on generalizing s with
  | h n ih =>
    rcases hround s hs with ⟨s', hbody, hs', hlt⟩ | ⟨out, hbody, hout⟩
    · obtain ⟨out, hout, hrun⟩ := ih (μ s') (hμ ▸ hlt) hs' rfl
      refine ⟨out, hout, fun fuel hfuel rounds hrounds => ?_⟩
      obtain ⟨k, rfl⟩ : ∃ k, rounds = k + 1 := ⟨rounds - 1, by omega⟩
      rw [run_succ_next (hbody fuel hfuel)]
      exact hrun fuel hfuel k (by omega)
    · refine ⟨out, hout, fun fuel hfuel rounds hrounds => ?_⟩
      obtain ⟨k, rfl⟩ : ∃ k, rounds = k + 1 := ⟨rounds - 1, by omega⟩
      exact run_succ_out (hbody fuel hfuel)

end Loop
