import SwiftBSD.Lib.Loop
import Mathlib.Order.Defs.Unbundled

namespace SwiftBSD.Lib

variable {σ τ α β : Type} {R : σ → σ → Prop}

theorem pure_run {a b : α} {s t : σ} (run : (Pure.pure a : Prog σ α).run s = some (b, t)) : a = b ∧ s = t :=
  Prod.mk.inj (Option.some.inj run)

/-- Every run of `x` leads to a state that `R` relates to the first one. -/
def Moves (R : σ → σ → Prop) (x : Prog σ α) : Prop := ∀ s a t, x.run s = some (a, t) → R s t

namespace Moves

theorem failure : Moves R (failure : Prog σ α) := by
  intro s a t run
  cases run

theorem modify {g : σ → σ} (each : ∀ s, R s (g s)) : Moves R (modify g : Prog σ Unit) := by
  intro s a t run
  cases run
  exact each s

theorem mono {x : Prog σ α} {S : σ → σ → Prop} (moves : Moves R x) (weaker : ∀ s t, R s t → S s t) : Moves S x :=
  fun s a t run => weaker s t (moves s a t run)

section Preorder
variable [IsPreorder σ R]

theorem pure (a : α) : Moves R (Pure.pure a : Prog σ α) := by
  intro s b t run
  cases run
  exact refl_of R s

theorem get : Moves R (MonadState.get : Prog σ σ) := by
  intro s a t run
  cases run
  exact refl_of R s

theorem bind {x : Prog σ α} {f : α → Prog σ β} (first : Moves R x) (rest : ∀ a, Moves R (f a)) : Moves R (x >>= f) := by
  intro s b t run
  obtain ⟨a, u, hx, hf⟩ := run_bind_eq_some.mp run
  exact trans_of R (first s a u hx) (rest a u b t hf)

theorem search {body : Nat → Prog σ (Option α)} (each : ∀ i, Moves R (body i)) (i n : Nat) : Moves R (searchM body i n) := by
  induction n generalizing i with
  | zero => exact pure none
  | succ n ih =>
      unfold searchM
      refine bind (each i) fun r => ?_
      cases r with
      | some a => exact pure _
      | none => exact ih (i+1)

theorem forRange {body : Nat → Prog σ Unit} (each : ∀ i, Moves R (body i)) (i n : Nat) :
    Moves R (SwiftBSD.Lib.forRange body i n) := by
  induction n generalizing i with
  | zero => exact pure ()
  | succ n ih =>
      unfold SwiftBSD.Lib.forRange
      exact bind (each i) fun _ => ih (i+1)

end Preorder

end Moves

end SwiftBSD.Lib
