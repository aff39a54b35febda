import SwiftBSD.Lib.Prog

namespace SwiftBSD.Lib

variable {σ α : Type}

def forRange (body : Nat → Prog σ Unit) : Nat → Nat → Prog σ Unit
  | _, 0 => pure ()
  | i, n+1 => do
      body i
      forRange body (i+1) n

theorem forRange_run {body : Nat → Prog σ Unit} (I : Nat → σ → Prop) {i n : Nat} {s t : σ} (start : I i s)
    (step : ∀ j s t, i ≤ j → j < i + n → I j s → (body j).run s = some ((), t) → I (j+1) t)
    (run : (forRange body i n).run s = some ((), t)) : I (i+n) t := by
  induction n generalizing i s with
  | zero =>
      cases run
      exact start
  | succ n ih =>
      unfold forRange at run
      obtain ⟨_, s₁, first, rest⟩ := run_bind_eq_some.mp run
      have start' := step i s s₁ (Nat.le_refl _) (by omega) start first
      have := ih start' (fun j s t lower upper => step j s t (by omega) (by omega)) rest
      rwa [Nat.add_right_comm, Nat.add_assoc] at this

theorem searchM_run {body : Nat → Prog σ (Option α)} (I : Nat → σ → Prop) (Q : Option α → σ → Prop) {i n : Nat} {s t : σ}
    {r : Option α} (start : I i s)
    (step : ∀ j s r t, i ≤ j → j < i + n → I j s → (body j).run s = some (r, t) →
      match r with
      | some a => Q (some a) t
      | none => I (j+1) t)
    (finish : ∀ t, I (i+n) t → Q none t) (run : (searchM body i n).run s = some (r, t)) : Q r t := by
  induction n generalizing i s with
  | zero =>
      cases run
      exact finish _ start
  | succ n ih =>
      unfold searchM at run
      obtain ⟨r₁, s₁, first, rest⟩ := run_bind_eq_some.mp run
      have next := step i s r₁ s₁ (Nat.le_refl _) (by omega) start first
      cases r₁ with
      | some a =>
          cases rest
          exact next
      | none =>
          refine ih next (fun j s r t lower upper => step j s r t (by omega) (by omega)) (fun t done => finish t ?_) rest
          rwa [Nat.add_right_comm, Nat.add_assoc] at done

theorem forRange_total {body : Nat → Prog σ Unit} (total : ∀ j s, ∃ t, (body j).run s = some ((), t)) (i n : Nat) (s : σ) :
    ∃ t, (forRange body i n).run s = some ((), t) := by
  induction n generalizing i s with
  | zero => exact ⟨s, rfl⟩
  | succ n ih =>
      obtain ⟨s₁, first⟩ := total i s
      obtain ⟨t, rest⟩ := ih (i+1) s₁
      refine ⟨t, ?_⟩
      unfold forRange
      rw [run_bind_some first, rest]

theorem forRange_succeeds {body : Nat → Prog σ Unit} (I : Nat → σ → Prop) {i n : Nat} {s : σ} (start : I i s)
    (step : ∀ j s, i ≤ j → j < i + n → I j s → ∃ t, (body j).run s = some ((), t) ∧ I (j+1) t) :
    ∃ t, (forRange body i n).run s = some ((), t) ∧ I (i+n) t := by
  induction n generalizing i s with
  | zero => exact ⟨s, rfl, start⟩
  | succ n ih =>
      obtain ⟨s₁, first, next⟩ := step i s (Nat.le_refl _) (by omega) start
      obtain ⟨t, rest, done⟩ := ih next fun j s lower upper => step j s (by omega) (by omega)
      rw [Nat.add_right_comm, Nat.add_assoc] at done
      refine ⟨t, ?_, done⟩
      unfold forRange
      rw [run_bind_some first]
      exact rest

theorem searchM_total {body : Nat → Prog σ (Option α)} (I : Nat → σ → Prop) {i n : Nat} {s : σ} (start : I i s)
    (step : ∀ j s, i ≤ j → j < i + n → I j s → ∃ t, (body j).run s = some (none, t) ∧ I (j+1) t) :
    ∃ t, (searchM body i n).run s = some (none, t) ∧ I (i+n) t := by
  induction n generalizing i s with
  | zero => exact ⟨s, rfl, start⟩
  | succ n ih =>
      obtain ⟨s₁, first, next⟩ := step i s (Nat.le_refl _) (by omega) start
      obtain ⟨t, rest, done⟩ := ih next fun j s lower upper => step j s (by omega) (by omega)
      rw [Nat.add_right_comm, Nat.add_assoc] at done
      refine ⟨t, ?_, done⟩
      unfold searchM
      rw [run_bind_some first]
      exact rest

theorem Keeps.forRange {γ : Type} {f : σ → γ} {body : Nat → Prog σ Unit} (each : ∀ i, Keeps f (body i)) (i n : Nat) :
    Keeps f (forRange body i n) := by
  induction n generalizing i with
  | zero => exact .pure ()
  | succ n ih =>
      unfold SwiftBSD.Lib.forRange
      exact .bind (each i) fun _ => ih (i+1)

end SwiftBSD.Lib
