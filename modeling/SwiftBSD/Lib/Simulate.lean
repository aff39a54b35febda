import SwiftBSD.Lib.Prog

namespace SwiftBSD.Lib

variable {σ τ α β : Type} {R R' R'' S S' : σ → τ → Prop}

/-- Where `x` does not go wrong, `y` has the same result. -/
def Follows (R R' : σ → τ → Prop) (x : Prog σ α) (y : Prog τ α) : Prop :=
  ∀ s t a s', R s t → x.run s = some (a, s') → ∃ t', y.run t = some (a, t') ∧ R' s' t'

namespace Follows

theorem pure (a : α) (imp : ∀ s t, R s t → R' s t) : Follows R R' (Pure.pure a) (Pure.pure a) := by
  intro s t b s' related run
  cases run
  exact ⟨t, rfl, imp s t related⟩

theorem failure {y : Prog τ α} : Follows R R' (failure : Prog σ α) y := by
  intro s t a s' _ run
  cases run

theorem bind {x : Prog σ α} {y : Prog τ α} {f : α → Prog σ β} {g : α → Prog τ β} (first : Follows R R' x y)
    (rest : ∀ a, Follows R' R'' (f a) (g a)) : Follows R R'' (x >>= f) (y >>= g) := by
  intro s t b s' related run
  obtain ⟨a, s₁, hx, hf⟩ := run_bind_eq_some.mp run
  obtain ⟨t₁, hy, related₁⟩ := first s t a s₁ related hx
  obtain ⟨t', hg, related'⟩ := rest a s₁ t₁ b s' related₁ hf
  exact ⟨t', run_bind_eq_some.mpr ⟨a, t₁, hy, hg⟩, related'⟩

theorem mono {x : Prog σ α} {y : Prog τ α} (h : Follows R R' x y) (pre : ∀ s t, S s t → R s t) (post : ∀ s t, R' s t → S' s t) :
    Follows S S' x y := by
  intro s t a s' related run
  obtain ⟨t', run', related'⟩ := h s t a s' (pre s t related) run
  exact ⟨t', run', post s' t' related'⟩

theorem get_bind {f : σ → Prog σ α} {g : τ → Prog τ α} (rest : ∀ s t, R s t → Follows R R' (f s) (g t)) :
    Follows R R' (get >>= f) (get >>= g) :=
  fun s t a s' related run => rest s t related s t a s' related run

theorem search {body : Nat → Prog σ (Option α)} {body' : Nat → Prog τ (Option α)} (each : ∀ i, Follows R R (body i) (body' i)) (i n : Nat) :
    Follows R R (searchM body i n) (searchM body' i n) := by
  induction n generalizing i with
  | zero => exact .pure none fun _ _ => id
  | succ n ih =>
      unfold searchM
      refine .bind (each i) fun r => ?_
      cases r with
      | none => exact ih (i+1)
      | some a => exact .pure (some a) fun _ _ => id

theorem foldlM {f : α → β → Prog σ α} {g : α → β → Prog τ α} (each : ∀ a b, Follows R R (f a b) (g a b)) (l : List β) (a : α) :
    Follows R R (l.foldlM f a) (l.foldlM g a) := by
  induction l generalizing a with
  | nil => exact .pure a fun _ _ => id
  | cons b rest ih =>
      rw [List.foldlM_cons, List.foldlM_cons]
      exact .bind (each a b) fun a' => ih a'

theorem ite {p : Prop} [Decidable p] {x x' : Prog σ α} {y y' : Prog τ α} (yes : p → Follows R R' x y) (no : ¬p → Follows R R' x' y') :
    Follows R R' (if p then x else x') (if p then y else y') := by
  by_cases h : p
  · rw [if_pos h, if_pos h]
    exact yes h
  · rw [if_neg h, if_neg h]
    exact no h

end Follows

end SwiftBSD.Lib
