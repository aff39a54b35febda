import Mathlib.Data.List.Basic

namespace SwiftBSD.Lib

variable {α : Type} [BEq α] [LawfulBEq α] {a c : α} {l r : List α}

def parts (a : α) (l : List α) : List (List α) := (l.splitOn a).filter fun p => !p.isEmpty

omit [LawfulBEq α] in
@[simp] theorem parts_nil : parts a [] = [] := rfl

theorem parts_append : parts a (l ++ a :: r) = parts a l ++ parts a r := by
  unfold parts
  rw [List.splitOn_append_cons_of_beq l r (beq_self_eq_true a), List.filter_append]

@[simp] theorem parts_cons_self : parts a (a :: l) = parts a l := parts_append (l := [])

theorem parts_concat_self : parts a (l ++ [a]) = parts a l := by
  rw [parts_append, parts_nil, List.append_nil]

theorem parts_eq_singleton (some_ : l ≠ []) (none : a ∉ l) : parts a l = [l] := by
  have full : (!l.isEmpty) = true := by
    rw [Bool.not_eq_true', List.isEmpty_eq_false_iff]
    exact some_
  unfold parts
  rw [List.splitOn_eq_singleton none, List.filter_singleton, full]
  rfl

theorem not_mem_takeWhile : a ∉ l.takeWhile (· != a) := by
  intro member
  have := List.all_eq_true.mp (List.all_takeWhile (p := (· != a)) (l := l)) a member
  simp at this

omit [BEq α] [LawfulBEq α] in
theorem dropWhile_cons_not {p : α → Bool} (rest : l.dropWhile p = c :: r) : p c = false := by
  have stop := List.head_dropWhile_not p (l := l) (by rw [rest]; exact List.cons_ne_nil c r)
  simpa only [rest, List.head_cons] using stop

theorem parts_dropWhile (a : α) (l : List α) : parts a (l.dropWhile (· == a)) = parts a l := by
  induction l with
  | nil => rfl
  | cons b l ih =>
      rw [List.dropWhile_cons]
      split
      · next same =>
          obtain rfl := eq_of_beq same
          rw [ih, parts_cons_self]
      · rfl

theorem parts_cons (other : c ≠ a) : parts a (c :: l) = (c :: l).takeWhile (· != a) :: parts a ((c :: l).dropWhile (· != a)) := by
  have head : (c :: l).takeWhile (· != a) ≠ [] := by
    rw [List.takeWhile_cons_of_pos (by simpa using other)]
    exact List.cons_ne_nil _ _
  have run : parts a ((c :: l).takeWhile (· != a)) = [(c :: l).takeWhile (· != a)] := parts_eq_singleton head not_mem_takeWhile
  have whole : (c :: l).takeWhile (· != a) ++ (c :: l).dropWhile (· != a) = c :: l := List.takeWhile_append_dropWhile
  cases rest : (c :: l).dropWhile (· != a) with
  | nil =>
      rw [rest, List.append_nil] at whole
      rw [parts_nil, ← run, whole]
  | cons b r =>
      have sep : b = a := by simpa using dropWhile_cons_not rest
      subst sep
      rw [rest] at whole
      conv_lhs => rw [← whole]
      rw [parts_append, run, parts_cons_self]
      rfl

end SwiftBSD.Lib
