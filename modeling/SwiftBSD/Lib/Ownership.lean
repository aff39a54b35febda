import Mathlib.Logic.Function.Basic
import Mathlib.Tactic.Common

namespace SwiftBSD.Lib

variable {P : Type} {used used' reserved : Nat → Prop} {store store' : P → Nat}

structure Owns (used reserved : Nat → Prop) (store : P → Nat) : Prop where
  marked : ∀ p, store p ≠ 0 → used (store p)
  unreserved : ∀ p, store p ≠ 0 → ¬ reserved (store p)
  unique : ∀ p q, store p ≠ 0 → store p = store q → p = q
  covered : ∀ b, reserved b → used b

/-- A used resource that is not stored anywhere. -/
structure Spare (used reserved : Nat → Prop) (store : P → Nat) (b : Nat) : Prop where
  nonzero : b ≠ 0
  marked : used b
  unreserved : ¬ reserved b
  absent : ∀ p, store p ≠ b

namespace Owns

theorem grow (own : Owns used reserved store) (more : ∀ b, used b → used' b) : Owns used' reserved store :=
  ⟨fun p hp => more _ (own.marked p hp), own.unreserved, own.unique, fun b hb => more b (own.covered b hb)⟩

theorem spare (own : Owns used reserved store) {b : Nat} (nonzero : b ≠ 0) (fresh : ¬ used b) (now : used' b) :
    Spare used' reserved store b where
  nonzero := nonzero
  marked := now
  unreserved := fun reserved => fresh (own.covered b reserved)
  absent := by
    rintro p rfl
    exact fresh (own.marked p nonzero)

theorem clear (own : Owns used reserved store) (less : ∀ p, store' p = 0 ∨ store' p = store p) :
    Owns used reserved store' := by
  have same {p : P} (hp : store' p ≠ 0) : store' p = store p := (less p).resolve_left hp
  have old {p : P} (hp : store' p ≠ 0) : store p ≠ 0 := same hp ▸ hp
  refine ⟨fun p hp => ?_, fun p hp => ?_, fun p q hp h => ?_, own.covered⟩
  · rw [same hp]
    exact own.marked p (old hp)
  · rw [same hp]
    exact own.unreserved p (old hp)
  · have hq : store' q ≠ 0 := h ▸ hp
    rw [same hp, same hq] at h
    exact own.unique p q (old hp) h

theorem release (own : Owns used reserved store) {b : Nat} (absent : ∀ p, store p ≠ b)
    (unreserved : ¬ reserved b) (still : ∀ c, c ≠ b → used c → used' c) : Owns used' reserved store where
  marked := fun p hp => still _ (absent p) (own.marked p hp)
  unreserved := own.unreserved
  unique := own.unique
  covered := by
    intro c hc
    refine still c ?_ (own.covered c hc)
    rintro rfl
    exact unreserved hc

theorem link [DecidableEq P] (own : Owns used reserved store) {b : Nat} (spare : Spare used reserved store b)
    (p : P) : Owns used reserved (Function.update store p b) := by
  refine ⟨fun q hq => ?_, fun q hq => ?_, fun q r hq h => ?_, own.covered⟩
  · by_cases same : q = p
    · subst same
      simpa using spare.marked
    · rw [Function.update_of_ne same] at hq ⊢
      exact own.marked q hq
  · by_cases same : q = p
    · subst same
      simpa using spare.unreserved
    · rw [Function.update_of_ne same] at hq ⊢
      exact own.unreserved q hq
  · by_cases same : q = p <;> by_cases same' : r = p
    · rw [same, same']
    · rw [same, Function.update_self, Function.update_of_ne same'] at h
      exact (spare.absent r h.symm).elim
    · rw [same', Function.update_self, Function.update_of_ne same] at h
      exact (spare.absent q h).elim
    · rw [Function.update_of_ne same] at hq
      rw [Function.update_of_ne same, Function.update_of_ne same'] at h
      exact own.unique q r hq h

end Owns

theorem Spare.grow {b : Nat} (spare : Spare used reserved store b) (more : ∀ b, used b → used' b) :
    Spare used' reserved store b :=
  ⟨spare.nonzero, more b spare.marked, spare.unreserved, spare.absent⟩

theorem Spare.link [DecidableEq P] {b c : Nat} (spare : Spare used reserved store b) (p : P) (other : b ≠ c) :
    Spare used reserved (Function.update store p c) b := by
  refine ⟨spare.nonzero, spare.marked, spare.unreserved, fun q => ?_⟩
  by_cases same : q = p
  · subst same
    rw [Function.update_self]
    exact other.symm
  · rw [Function.update_of_ne same]
    exact spare.absent q

end SwiftBSD.Lib
