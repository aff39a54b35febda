import Mathlib.Data.Fintype.Card
import Mathlib.Data.List.Basic
import Mathlib.Data.List.Nodup
import Mathlib.Logic.Relation

namespace SwiftBSD.Lib

variable {α : Type} {children : α → List α} {root b c x : α} {l p q : List α} {fuel : Nat}

def preorder (children : α → List α) : Nat → α → List α
  | 0, _ => []
  | fuel + 1, b => b :: (children b).flatMap (preorder children fuel)

def DeepEnough (children : α → List α) : Nat → α → Prop
  | 0, _ => False
  | fuel + 1, b => ∀ c ∈ children b, DeepEnough children fuel c

def LeadsTo (children : α → List α) : α → α → Prop := Relation.ReflTransGen fun b c => c ∈ children b

inductive PathFrom (children : α → List α) (root : α) : List α → Prop
  | root : PathFrom children root [root]
  | step {b c : α} {l : List α} : PathFrom children root (b :: l) → c ∈ children b → PathFrom children root (c :: b :: l)

/-- Every node below the root but the root itself has one parent, and is its child once. -/
structure Rooted (children : α → List α) (root : α) : Prop where
  nodup : ∀ b, LeadsTo children root b → (children b).Nodup
  orphan : ∀ b, LeadsTo children root b → root ∉ children b
  parent : ∀ b c x, LeadsTo children root b → LeadsTo children root c → x ∈ children b → x ∈ children c → b = c

namespace PathFrom

theorem reachable (path : PathFrom children root (b :: l)) : LeadsTo children root b := by
  generalize list : b :: l = p at path
  induction path generalizing b l with
  | root =>
      obtain ⟨rfl, -⟩ := List.cons.inj list
      exact .refl
  | step _ child ih =>
      obtain ⟨rfl, -⟩ := List.cons.inj list
      exact (ih rfl).tail child

theorem unique (tree : Rooted children root) (path : PathFrom children root (x :: p)) (other : PathFrom children root (x :: q)) : p = q := by
  generalize list : x :: p = whole at path
  induction path generalizing x p q with
  | root =>
      obtain ⟨rfl, rfl⟩ := List.cons.inj list
      cases other with
      | root => rfl
      | step before child => exact absurd child (tree.orphan _ before.reachable)
  | @step b c l before child ih =>
      obtain ⟨rfl, rfl⟩ := List.cons.inj list
      cases other with
      | root => exact absurd child (tree.orphan _ before.reachable)
      | @step b' _ l' before' child' =>
          obtain rfl := tree.parent b b' x before.reachable before'.reachable child child'
          rw [ih before' rfl]

theorem suffix (path : PathFrom children root p) (some_ : q ≠ []) (behind : q <:+ p) : PathFrom children root q := by
  induction path with
  | root =>
      rcases List.suffix_cons_iff.mp behind with rfl | behind
      · exact .root
      · exact absurd (List.suffix_nil.mp behind) some_
  | step before child ih =>
      rcases List.suffix_cons_iff.mp behind with rfl | behind
      · exact .step before child
      · exact ih behind

theorem nodup (tree : Rooted children root) (path : PathFrom children root p) : p.Nodup := by
  induction path with
  | root => exact List.nodup_singleton root
  | @step b c l before child ih =>
      refine List.nodup_cons.mpr ⟨fun member => ?_, ih⟩
      obtain ⟨front, rest, split⟩ := List.append_of_mem member
      have again := before.suffix (q := c :: rest) (List.cons_ne_nil c rest) ⟨front, split.symm⟩
      have same := (PathFrom.step before child).unique tree again
      have := congrArg List.length split
      rw [List.length_append, ← same] at this
      simp only [List.length_cons] at this
      omega

end PathFrom

theorem path_of_mem_preorder (path : PathFrom children root (b :: l)) (member : x ∈ preorder children fuel b) :
    ∃ q, PathFrom children root (x :: q) ∧ (b :: l) <:+ (x :: q) := by
  induction fuel generalizing b l with
  | zero => exact absurd member List.not_mem_nil
  | succ fuel ih =>
      rcases List.mem_cons.mp member with rfl | member
      · exact ⟨l, path, List.suffix_rfl⟩
      · obtain ⟨c, child, member⟩ := List.mem_flatMap.mp member
        obtain ⟨q, further, behind⟩ := ih (.step path child) member
        exact ⟨q, further, (List.suffix_cons c (b :: l)).trans behind⟩

theorem nodup_preorder (tree : Rooted children root) (path : PathFrom children root (b :: l)) : (preorder children fuel b).Nodup := by
  induction fuel generalizing b l with
  | zero => exact List.nodup_nil
  | succ fuel ih =>
      refine List.nodup_cons.mpr ⟨fun member => ?_, List.nodup_flatMap.mpr ⟨fun c child => ih (.step path child), ?_⟩⟩
      · obtain ⟨c, child, member⟩ := List.mem_flatMap.mp member
        obtain ⟨q, further, behind⟩ := path_of_mem_preorder (.step path child) member
        obtain rfl := path.unique tree further
        have := behind.length_le
        rw [List.length_cons] at this
        omega
      · refine (tree.nodup b path.reachable).imp_of_mem fun {c d} child child' different => ?_
        intro x member member'
        obtain ⟨q, further, behind⟩ := path_of_mem_preorder (.step path child) member
        obtain ⟨q', further', behind'⟩ := path_of_mem_preorder (.step path child') member'
        obtain rfl := further.unique tree further'
        have same := List.suffix_of_suffix_length_le behind behind' (by simp)
        exact different (List.cons.inj (same.eq_of_length (by simp))).1

theorem mem_preorder (deep : DeepEnough children fuel b) (leads : LeadsTo children b x) : x ∈ preorder children fuel b := by
  induction fuel generalizing b with
  | zero => exact absurd deep id
  | succ fuel ih =>
      rcases Relation.ReflTransGen.cases_head leads with rfl | ⟨c, child, leads⟩
      · exact List.mem_cons_self
      · exact List.mem_cons_of_mem _ (List.mem_flatMap.mpr ⟨c, child, ih (deep c child) leads⟩)

theorem leadsTo_of_mem_preorder (member : x ∈ preorder children fuel b) : LeadsTo children b x := by
  induction fuel generalizing b with
  | zero => exact absurd member List.not_mem_nil
  | succ fuel ih =>
      rcases List.mem_cons.mp member with rfl | member
      · exact .refl
      · obtain ⟨c, child, member⟩ := List.mem_flatMap.mp member
        exact .head child (ih member)

theorem long_path (path : PathFrom children root (b :: l)) (cut : ¬DeepEnough children fuel b) :
    ∃ q, PathFrom children root q ∧ q.length = l.length + 1 + fuel := by
  induction fuel generalizing b l with
  | zero => exact ⟨b :: l, path, rfl⟩
  | succ fuel ih =>
      rw [DeepEnough] at cut
      push Not at cut
      obtain ⟨c, child, cut⟩ := cut
      obtain ⟨q, further, length⟩ := ih (.step path child) cut
      exact ⟨q, further, by rw [length, List.length_cons]; omega⟩

theorem deepEnough_card [Fintype α] (tree : Rooted children root) (many : Fintype.card α ≤ fuel) : DeepEnough children fuel root := by
  by_contra cut
  obtain ⟨q, path, length⟩ := long_path .root cut
  have := (path.nodup tree).length_le_card
  rw [length, List.length_nil] at this
  omega

end SwiftBSD.Lib
