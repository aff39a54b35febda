import Mathlib.Data.List.Induction
import Mathlib.Tactic.Common

namespace SwiftBSD.Lib

variable {E : Type} {next : E → Option Nat} {mem mem' : Nat → Nat → E} {width n depth root f g i : Nat} {p q : List Nat}

def tableAt (next : E → Option Nat) (mem : Nat → Nat → E) : Nat → List Nat → Option Nat
  | f, [] => some f
  | f, i :: path => (next (mem f i)).bind fun g => tableAt next mem g path

/-- A path of at most `depth` indices below `width`, the first one below `n`. -/
inductive Path (width : Nat) : Nat → Nat → List Nat → Prop
  | nil {n depth : Nat} : Path width n depth []
  | cons {n depth i : Nat} {rest : List Nat} (bound : i < n) (path : Path width width depth rest) :
      Path width n (depth+1) (i :: rest)

structure Tree (next : E → Option Nat) (mem : Nat → Nat → E) (width n depth root : Nat) : Prop where
  unique : ∀ p q f, Path width n depth p → Path width n depth q → tableAt next mem root p = some f →
    tableAt next mem root q = some f → p = q

theorem Path.grow (path : Path width n depth p) {n' : Nat} (more : n ≤ n') : Path width n' depth p := by
  cases path with
  | nil => exact .nil
  | cons bound path => exact .cons (by omega) path

theorem Path.left (path : Path width n depth (p ++ q)) : Path width n depth p := by
  induction p generalizing n depth with
  | nil => exact .nil
  | cons i p ih =>
      cases path with
      | cons bound path => exact .cons bound (ih path)

theorem Path.length_le (path : Path width n depth p) : p.length ≤ depth := by
  induction path with
  | nil => exact Nat.zero_le _
  | cons _ _ ih => exact Nat.succ_le_succ ih

theorem tableAt_cons (here : next (mem f i) = some g) : tableAt next mem f (i :: p) = tableAt next mem g p := by
  rw [tableAt, here]
  rfl

theorem tableAt_cons_some {h : Nat} (at_ : tableAt next mem f (i :: p) = some h) :
    ∃ g, next (mem f i) = some g ∧ tableAt next mem g p = some h := by
  rw [tableAt] at at_
  exact Option.bind_eq_some_iff.mp at_

theorem tableAt_congr (same : ∀ q i rest f, p = q ++ i :: rest → tableAt next mem root q = some f →
    next (mem' f i) = next (mem f i)) : tableAt next mem' root p = tableAt next mem root p := by
  induction p generalizing root with
  | nil => rfl
  | cons i p ih =>
      have here := same [] i p root rfl rfl
      rw [tableAt, tableAt, here]
      cases found : next (mem root i) with
      | none => rfl
      | some g =>
          dsimp only [Option.bind_some]
          refine ih fun q i' rest f split at_ => ?_
          exact same (i :: q) i' rest f (by rw [split]; rfl) (by rw [tableAt_cons found, at_])

theorem tableAt_append : tableAt next mem f (p ++ q) = (tableAt next mem f p).bind fun g => tableAt next mem g q := by
  induction p generalizing f with
  | nil => rfl
  | cons i p ih =>
      rw [List.cons_append, tableAt, tableAt, Option.bind_assoc]
      congr 1
      funext g
      exact ih

theorem tableAt_snoc : tableAt next mem f (p ++ [i]) = (tableAt next mem f p).bind fun g => next (mem g i) := by
  rw [tableAt_append]
  congr 1
  funext g
  rw [tableAt]
  exact Option.bind_fun_some _

theorem Path.snoc (path : Path width width depth p) (short : p.length < depth) (bound : i < width) :
    Path width width depth (p ++ [i]) := by
  induction p generalizing depth with
  | nil =>
      obtain ⟨depth, rfl⟩ := Nat.exists_eq_succ_of_ne_zero (by omega : depth ≠ 0)
      exact .cons bound .nil
  | cons j p ih =>
      cases path with
      | cons first path => exact .cons first (ih path (Nat.lt_of_succ_lt_succ short))

theorem Path.snoc_lt (path : Path width n depth (p ++ [i])) (wide : n ≤ width) : i < width := by
  induction p generalizing n depth with
  | nil =>
      cases path with
      | cons bound => omega
  | cons j p ih =>
      cases path with
      | cons _ path => exact ih path (Nat.le_refl _)

theorem Path.extend {d : Nat} (path : Path width n depth (p ++ [i])) (below : Path width width d q)
    (deep : p.length + 1 + d = depth) : Path width n depth (p ++ i :: q) := by
  induction p generalizing n depth with
  | nil =>
      obtain rfl : depth = d + 1 := by
        rw [List.length_nil] at deep
        omega
      cases path with
      | cons bound => exact .cons bound below
  | cons k p ih =>
      cases path with
      | cons bound path =>
          rw [List.length_cons] at deep
          exact .cons bound (ih path (by omega))

/-- Entry `i` of the table at path `q` leads to a new table `g`, whose entries lead nowhere. -/
structure Grown (next : E → Option Nat) (mem mem' : Nat → Nat → E) (width depth root : Nat) (q : List Nat) (f i g : Nat) :
    Prop where
  here : tableAt next mem root q = some f
  blank : next (mem f i) = none
  entry : next (mem' f i) = some g
  empty : q.length + 1 < depth → ∀ j, j < width → next (mem' g j) = none
  same : ∀ h j, h ≠ g → (h ≠ f ∨ j ≠ i) → mem' h j = mem h j

namespace Tree

theorem sub (tree : Tree next mem width n (depth+1) root) (bound : i < n) (here : next (mem root i) = some g) :
    Tree next mem width width depth g := by
  refine ⟨fun p q f path path' at_ at' => ?_⟩
  have same := tree.unique (i :: p) (i :: q) f (.cons bound path) (.cons bound path')
    (by rw [tableAt_cons here, at_]) (by rw [tableAt_cons here, at'])
  exact (List.cons.inj same).2

theorem root_apart (tree : Tree next mem width n (depth+1) root) (bound : i < n) (here : next (mem root i) = some g)
    (path : Path width width depth p) (at_ : tableAt next mem g p = some f) : f ≠ root := by
  rintro rfl
  exact nomatch tree.unique (i :: p) [] f (.cons bound path) .nil (by rw [tableAt_cons here, at_]) rfl

theorem apart (tree : Tree next mem width n (depth+1) root) {j h : Nat} (bound : i < n) (here : next (mem root i) = some g)
    (path : Path width width depth p) (at_ : tableAt next mem g p = some f) (bound' : j < n)
    (here' : next (mem root j) = some h) (path' : Path width width depth q) (at' : tableAt next mem h q = some f) :
    i = j := by
  have same := tree.unique (i :: p) (j :: q) f (.cons bound path) (.cons bound' path')
    (by rw [tableAt_cons here, at_]) (by rw [tableAt_cons here', at'])
  exact (List.cons.inj same).1

section Grown
variable (tree : Tree next mem width n depth root) (path : Path width n depth (q ++ [i]))
  (fresh : ∀ p, Path width n depth p → tableAt next mem root p ≠ some g) (grown : Grown next mem mem' width depth root q f i g)
  (wide : n ≤ width)
include tree path fresh grown wide

theorem tableAt_grown {p : List Nat} {h : Nat} (path' : Path width n depth p) :
    tableAt next mem' root p = some h ↔ tableAt next mem root p = some h ∨ p = q ++ [i] ∧ h = g := by
  induction p using List.reverseRecOn generalizing h with
  | nil =>
      constructor
      · exact .inl
      · rintro (at_ | ⟨wrong, -⟩)
        · exact at_
        · exact absurd wrong (by simp)
  | append_singleton p j ih =>
      have bound : j < width := path'.snoc_lt wide
      -- an old table leads where it led, unless it is the one with the new entry
      have step {k : Nat} (at_ : tableAt next mem root p = some k) :
          next (mem' k j) = if k = f ∧ j = i then some g else next (mem k j) := by
        split
        · next here =>
            obtain ⟨rfl, rfl⟩ := here
            exact grown.entry
        · next other =>
            rw [grown.same k j]
            · rintro rfl
              exact fresh p path'.left at_
            · by_contra both
              push Not at both
              exact other both
      rw [tableAt_snoc, tableAt_snoc]
      simp only [Option.bind_eq_some_iff]
      constructor
      · rintro ⟨k, at_, leads⟩
        rcases (ih path'.left).mp at_ with old | ⟨rfl, rfl⟩
        · rw [step old] at leads
          split at leads
          · next here =>
              obtain ⟨rfl, rfl⟩ := here
              obtain rfl := tree.unique p q k path'.left path.left old grown.here
              exact .inr ⟨rfl, (Option.some.inj leads).symm⟩
          · exact .inl ⟨k, old, leads⟩
        · have length := path'.length_le
          simp only [List.length_append, List.length_singleton] at length
          rw [grown.empty (by omega) j bound] at leads
          cases leads
      · rintro (⟨k, old, leads⟩ | ⟨same, rfl⟩)
        · refine ⟨k, (ih path'.left).mpr (.inl old), ?_⟩
          rw [step old, if_neg, leads]
          rintro ⟨rfl, rfl⟩
          rw [grown.blank] at leads
          cases leads
        · obtain ⟨rfl, last⟩ := List.append_inj' same rfl
          obtain rfl := List.singleton_inj.mp last
          exact ⟨f, (ih path'.left).mpr (.inl grown.here), grown.entry⟩

theorem grow : Tree next mem' width n depth root := by
  refine ⟨fun p p' h path₁ path₂ at_ at' => ?_⟩
  rcases (tableAt_grown tree path fresh grown wide path₁).mp at_ with old | ⟨rfl, rfl⟩
  · rcases (tableAt_grown tree path fresh grown wide path₂).mp at' with old' | ⟨rfl, rfl⟩
    · exact tree.unique p p' h path₁ path₂ old old'
    · exact (fresh p path₁ old).elim
  · rcases (tableAt_grown tree path fresh grown wide path₂).mp at' with old' | ⟨rfl, -⟩
    · exact (fresh p' path₂ old').elim
    · rfl

end Grown

end Tree

end SwiftBSD.Lib
