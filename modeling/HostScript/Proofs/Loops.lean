/-!
# Loops

A loop goes from state to state until a turn gives an answer. `Loop` relates the states from which it ends to its
answers. A bounded number of turns gives the answer if something gets smaller with every turn and is below the bound
at the start (`Loop.within`).
-/

set_option autoImplicit false

namespace HostScript

variable {σ ρ : Type}

/-- From a state, a loop ends with an answer. -/
inductive Loop (turn : σ → σ ⊕ ρ) : σ → ρ → Prop
  | ends {s : σ} {answer : ρ} : turn s = .inr answer → Loop turn s answer
  | goesOn {s s' : σ} {answer : ρ} : turn s = .inl s' → Loop turn s' answer → Loop turn s answer

/-- The answer of a loop that is left after so many turns. -/
def withinTurns (turn : σ → σ ⊕ ρ) (otherwise : σ → ρ) : Nat → σ → ρ
  | 0, s => otherwise s
  | turns + 1, s =>
    match turn s with
    | .inl s' => withinTurns turn otherwise turns s'
    | .inr answer => answer

/-- A loop with a measure ends before more turns are taken than the measure says. -/
theorem Loop.within {turn : σ → σ ⊕ ρ} (otherwise : σ → ρ) (good : σ → Prop) (size : σ → Nat)
    (hturn : ∀ s s', good s → turn s = .inl s' → good s' ∧ size s' < size s) :
    ∀ (turns : Nat) (s : σ), good s → size s < turns → Loop turn s (withinTurns turn otherwise turns s)
  | 0, _, _, hsize => absurd hsize (Nat.not_lt_zero _)
  | turns + 1, s, hs, hsize => by
    unfold withinTurns
    cases ht : turn s with
    | inr answer => exact .ends ht
    | inl s' =>
      obtain ⟨hs', hless⟩ := hturn s s' hs ht
      exact .goesOn ht (Loop.within otherwise good size hturn turns s' hs' (by omega))

end HostScript
