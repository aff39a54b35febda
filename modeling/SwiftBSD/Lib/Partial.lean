import SwiftBSD.Lib.Prog

namespace SwiftBSD.Lib

variable {σ V α β : Type} {Rep : σ → V → Prop} {v : V}

def IfRuns (Rep : σ → V → Prop) (x : Prog σ α) (v : V) (Q : α → V → Prop) : Prop :=
  ∀ s a t, Rep s v → x.run s = some (a, t) → ∃ v', Rep t v' ∧ Q a v'

theorem IfRuns.pure {a : α} {Q : α → V → Prop} (h : Q a v) : IfRuns Rep (Pure.pure a) v Q := by
  intro s b t rep run
  cases run
  exact ⟨v, rep, h⟩

theorem IfRuns.failure {Q : α → V → Prop} : IfRuns Rep (failure : Prog σ α) v Q := by
  intro s a t _ run
  cases run

theorem IfRuns.bind {x : Prog σ α} {f : α → Prog σ β} {P : α → V → Prop} {Q : β → V → Prop} (first : IfRuns Rep x v P)
    (rest : ∀ a v', P a v' → IfRuns Rep (f a) v' Q) : IfRuns Rep (x >>= f) v Q := by
  intro s b t rep run
  obtain ⟨a, u, hx, hf⟩ := run_bind_eq_some.mp run
  obtain ⟨v', rep', ha⟩ := first s a u rep hx
  exact rest a v' ha u b t rep' hf

theorem IfRuns.mono {x : Prog σ α} {P Q : α → V → Prop} (h : IfRuns Rep x v P) (imp : ∀ a v', P a v' → Q a v') : IfRuns Rep x v Q := by
  intro s a t rep run
  obtain ⟨v', rep', ha⟩ := h s a t rep run
  exact ⟨v', rep', imp a v' ha⟩

theorem IfRuns.search {body : Nat → Prog σ (Option α)} {Q : Option α → V → Prop} {n : Nat} (i : Nat)
    (step : ∀ j, IfRuns Rep (body j) v fun r v' =>
      match r with
      | some a => Q (some a) v'
      | none => v' = v)
    (finish : Q none v) : IfRuns Rep (searchM body i n) v Q := by
  induction n generalizing i with
  | zero => exact .pure finish
  | succ n ih =>
      unfold searchM
      refine .bind (step i) ?_
      intro r v' hr
      cases r with
      | some a => exact .pure hr
      | none =>
          dsimp only at hr
          subst hr
          exact ih (i + 1)

end SwiftBSD.Lib
