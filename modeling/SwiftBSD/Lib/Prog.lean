import Mathlib.Logic.Function.Basic
import Mathlib.Tactic.Common

namespace SwiftBSD.Lib

abbrev Prog (σ α : Type) := StateT σ Option α

section Loops
variable {σ α : Type}

/-- The least `i` in `[i, i + n)` with `p i`: a `for` loop with an early exit. -/
def firstFrom (p : Nat → Bool) : Nat → Nat → Option Nat
  | _, 0 => none
  | i, n+1 => if p i then some i else firstFrom p (i+1) n

/-- The first answer `f` gives on `[i, i + n)`. -/
def firstSome (f : Nat → Option α) : Nat → Nat → Option α
  | _, 0 => none
  | i, n+1 => match f i with
      | some a => some a
      | none => firstSome f (i+1) n

/-- A `for` loop over `[i, i + n)` whose body may leave it with a result. -/
def searchM (body : Nat → Prog σ (Option α)) : Nat → Nat → Prog σ (Option α)
  | _, 0 => pure none
  | i, n+1 => do
      match ← body i with
      | some a => pure (some a)
      | none => searchM body (i+1) n

theorem firstFrom_some {p : Nat → Bool} {i n k : Nat} (h : firstFrom p i n = some k) :
    i ≤ k ∧ k < i + n ∧ p k = true ∧ ∀ j, i ≤ j → j < k → p j = false := by
  induction n generalizing i with
  | zero => simp [firstFrom] at h
  | succ n ih =>
      unfold firstFrom at h
      split at h
      · next hp =>
          obtain rfl : i = k := by simpa using h
          exact ⟨Nat.le_refl _, by omega, hp, fun j hj hk => by omega⟩
      · next hp =>
          obtain ⟨lower, upper, holds, before⟩ := ih h
          refine ⟨by omega, by omega, holds, fun j hj hk => ?_⟩
          rcases Nat.eq_or_lt_of_le hj with rfl | hj
          · simpa using hp
          · exact before j hj hk

theorem firstFrom_none {p : Nat → Bool} {i n : Nat} :
    firstFrom p i n = none ↔ ∀ j, i ≤ j → j < i + n → p j = false := by
  induction n generalizing i with
  | zero => simp only [firstFrom, true_iff]; intro j hj hk; omega
  | succ n ih =>
      unfold firstFrom
      split
      · next hp =>
          simp only [reduceCtorEq, false_iff, not_forall]
          exact ⟨i, Nat.le_refl _, by omega, by simp [hp]⟩
      · next hp =>
          rw [ih]
          constructor
          · intro h j hj hk
            rcases Nat.eq_or_lt_of_le hj with rfl | hj
            · simpa using hp
            · exact h j hj (by omega)
          · intro h j hj hk
            exact h j (by omega) (by omega)

theorem firstSome_some {f : Nat → Option α} {i n : Nat} {a : α} (h : firstSome f i n = some a) :
    ∃ k, i ≤ k ∧ k < i + n ∧ f k = some a := by
  induction n generalizing i with
  | zero => simp [firstSome] at h
  | succ n ih =>
      unfold firstSome at h
      split at h
      · next found => exact ⟨i, Nat.le_refl _, by omega, by rw [found, h]⟩
      · obtain ⟨k, lower, upper, found⟩ := ih h
        exact ⟨k, by omega, by omega, found⟩

theorem firstSome_none {f : Nat → Option α} {i n : Nat} (h : firstSome f i n = none) :
    ∀ k, i ≤ k → k < i + n → f k = none := by
  induction n generalizing i with
  | zero => intro k _ _; omega
  | succ n ih =>
      unfold firstSome at h
      split at h
      · cases h
      · next found =>
          intro k lower upper
          rcases Nat.eq_or_lt_of_le lower with rfl | lower
          · exact found
          · exact ih h k lower (by omega)

end Loops

section Run
variable {σ α β : Type}

theorem run_bind_some {x : Prog σ α} {f : α → Prog σ β} {s s' : σ} {a : α}
    (h : x.run s = some (a, s')) : (x >>= f).run s = (f a).run s' := by
  rw [StateT.run_bind, h]
  rfl

theorem run_bind_eq_some {x : Prog σ α} {f : α → Prog σ β} {s t : σ} {b : β} :
    (x >>= f).run s = some (b, t) ↔ ∃ a s', x.run s = some (a, s') ∧ (f a).run s' = some (b, t) := by
  rw [StateT.run_bind]
  constructor
  · intro h
    obtain ⟨⟨a, s'⟩, hx, hf⟩ := Option.bind_eq_some_iff.mp h
    exact ⟨a, s', hx, hf⟩
  · rintro ⟨a, s', hx, hf⟩
    exact Option.bind_eq_some_iff.mpr ⟨(a, s'), hx, hf⟩

end Run

section Refines
variable {σ τ α β α' β' : Type} {R : σ → τ → Prop} {Q : α → β → Prop} {P : α' → β' → Prop}

def Refines (R : σ → τ → Prop) (Q : α → β → Prop) (x : Prog σ α) (y : Prog τ β) : Prop :=
  ∀ s t a s', R s t → x.run s = some (a, s') → ∃ b t', y.run t = some (b, t') ∧ Q a b ∧ R s' t'

theorem Refines.pure {a : α} {b : β} (h : Q a b) : Refines R Q (Pure.pure a) (Pure.pure b) := by
  intro s t a' s' related run
  obtain ⟨rfl, rfl⟩ : a = a' ∧ s = s' := by
    simpa [Prod.ext_iff] using run
  exact ⟨b, t, rfl, h, related⟩

theorem Refines.failure {y : Prog τ β} : Refines R Q (failure : Prog σ α) y := by
  intro s t a s' _ run
  cases run

theorem Refines.bind {x : Prog σ α'} {y : Prog τ β'} {f : α' → Prog σ α} {g : β' → Prog τ β}
    (first : Refines R P x y) (rest : ∀ a b, P a b → Refines R Q (f a) (g b)) :
    Refines R Q (x >>= f) (y >>= g) := by
  intro s t a s' related run
  obtain ⟨c, s₁, hx, hf⟩ := run_bind_eq_some.mp run
  obtain ⟨d, t₁, hy, hcd, related₁⟩ := first s t c s₁ related hx
  obtain ⟨b, t', hg, hab, related'⟩ := rest c d hcd s₁ t₁ a s' related₁ hf
  exact ⟨b, t', run_bind_eq_some.mpr ⟨d, t₁, hy, hg⟩, hab, related'⟩

theorem Refines.search {body : Nat → Prog σ (Option α)} {body' : Nat → Prog τ (Option α)}
    (h : ∀ i, Refines R Eq (body i) (body' i)) (i n : Nat) :
    Refines R Eq (searchM body i n) (searchM body' i n) := by
  induction n generalizing i with
  | zero => exact .pure rfl
  | succ n ih =>
      unfold searchM
      refine .bind (h i) ?_
      rintro a _ rfl
      cases a with
      | none => exact ih (i+1)
      | some a => exact .pure rfl

end Refines

section Runs
variable {σ V α β : Type} {Rep : σ → V → Prop}

def Runs (Rep : σ → V → Prop) (x : Prog σ α) (v : V) (Q : α → V → Prop) : Prop :=
  ∀ s, Rep s v → ∃ a s' v', x.run s = some (a, s') ∧ Rep s' v' ∧ Q a v'

theorem Runs.pure {a : α} {v : V} {Q : α → V → Prop} (h : Q a v) : Runs Rep (Pure.pure a) v Q :=
  fun s rep => ⟨a, s, v, rfl, rep, h⟩

theorem Runs.bind {x : Prog σ α} {f : α → Prog σ β} {v : V} {P : α → V → Prop} {Q : β → V → Prop}
    (first : Runs Rep x v P) (rest : ∀ a v', P a v' → Runs Rep (f a) v' Q) :
    Runs Rep (x >>= f) v Q := by
  intro s rep
  obtain ⟨a, s₁, v₁, hx, rep₁, ha⟩ := first s rep
  obtain ⟨b, s', v', hf, rep', hb⟩ := rest a v₁ ha s₁ rep₁
  exact ⟨b, s', v', by rw [run_bind_some hx, hf], rep', hb⟩

theorem Runs.mono {x : Prog σ α} {v : V} {P Q : α → V → Prop} (h : Runs Rep x v P)
    (imp : ∀ a v', P a v' → Q a v') : Runs Rep x v Q := by
  intro s rep
  obtain ⟨a, s', v', run, rep', ha⟩ := h s rep
  exact ⟨a, s', v', run, rep', imp a v' ha⟩

theorem Runs.search {body : Nat → Prog σ (Option α)} {Q : Option α → V → Prop} (I : Nat → V → Prop)
    {i n : Nat} {v : V} (start : I i v)
    (step : ∀ j v, i ≤ j → j < i + n → I j v → Runs Rep (body j) v fun r v' =>
      match r with
      | some a => Q (some a) v'
      | none => I (j+1) v')
    (finish : ∀ v, I (i+n) v → Q none v) : Runs Rep (searchM body i n) v Q := by
  induction n generalizing i v with
  | zero => exact .pure (finish v start)
  | succ n ih =>
      unfold searchM
      refine .bind (step i v (Nat.le_refl _) (by omega) start) ?_
      intro r v' hr
      cases r with
      | some a => exact .pure hr
      | none =>
          exact ih hr (fun j w hj hk => step j w (by omega) (by omega)) fun w hw =>
            finish w (by rwa [Nat.add_right_comm, Nat.add_assoc] at hw)

theorem Runs.foldlM {f : α → β → Prog σ α} (I : List β → α → V → Prop) {l : List β} {a : α} {v : V} (start : I l a v)
    (step : ∀ b rest a v, I (b :: rest) a v → Runs Rep (f a b) v (I rest)) :
    Runs Rep (l.foldlM f a) v (I []) := by
  induction l generalizing a v with
  | nil => exact .pure start
  | cons b rest ih =>
      rw [List.foldlM_cons]
      exact .bind (step b rest a v start) fun a' v' h => ih h

end Runs

section Keeps
variable {σ α β γ : Type} {f : σ → γ}

/-- No run of `x` changes what `f` shows of the state. -/
def Keeps (f : σ → γ) (x : Prog σ α) : Prop := ∀ s a t, x.run s = some (a, t) → f t = f s

theorem Keeps.pure (a : α) : Keeps f (Pure.pure a : Prog σ α) := by
  intro s b t run
  cases run
  rfl

theorem Keeps.failure : Keeps f (failure : Prog σ α) := by
  intro s b t run
  cases run

theorem Keeps.bind {x : Prog σ α} {g : α → Prog σ β} (first : Keeps f x) (rest : ∀ a, Keeps f (g a)) :
    Keeps f (x >>= g) := by
  intro s b t run
  obtain ⟨a, s₁, hx, hg⟩ := run_bind_eq_some.mp run
  exact (rest a s₁ b t hg).trans (first s a s₁ hx)

theorem Keeps.get : Keeps f (MonadState.get : Prog σ σ) := by
  intro s a t run
  cases run
  rfl

theorem Keeps.modify {g : σ → σ} (same : ∀ s, f (g s) = f s) : Keeps f (modify g : Prog σ Unit) := by
  intro s a t run
  cases run
  exact same s

theorem Keeps.search {body : Nat → Prog σ (Option α)} (each : ∀ i, Keeps f (body i)) (i n : Nat) :
    Keeps f (searchM body i n) := by
  induction n generalizing i with
  | zero => exact .pure none
  | succ n ih =>
      unfold searchM
      refine .bind (each i) fun r => ?_
      cases r with
      | some a => exact .pure _
      | none => exact ih (i+1)

theorem Keeps.foldlM {g : α → β → Prog σ α} (each : ∀ a b, Keeps f (g a b)) (l : List β) (a : α) :
    Keeps f (l.foldlM g a) := by
  induction l generalizing a with
  | nil => exact .pure a
  | cons b rest ih =>
      rw [List.foldlM_cons]
      exact .bind (each a b) fun a' => ih a'

end Keeps

end SwiftBSD.Lib
