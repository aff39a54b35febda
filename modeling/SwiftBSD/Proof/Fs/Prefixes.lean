import SwiftBSD.Proof.Fs.Namespace

namespace SwiftBSD.Proof.Fs
open Lib SwiftBSD.Fs

variable {V : Vol} {D : Nat → List (List Rec)} {path l r c : List UInt8} {i j k n m p : Nat}

theorem takeWhile_before_slash : (l ++ slash :: r).takeWhile (· != slash) = l.takeWhile (· != slash) := by
  rw [List.takeWhile_append]
  split
  · next whole =>
      have stop : (slash :: r).takeWhile (· != slash) = [] := List.takeWhile_cons_of_neg (by simp)
      have all := (List.takeWhile_prefix (p := (· != slash)) (l := l)).eq_of_length whole
      rw [stop, List.append_nil, all]
  · rfl

theorem pathNext_append (l r : List UInt8) : pathNext (l ++ slash :: r) =
    match pathNext l with
    | some (c, rest) => some (c, rest ++ slash :: r)
    | none => pathNext r := by
  unfold pathNext
  rw [List.dropWhile_append]
  cases front : l.dropWhile (· == slash) with
  | nil => simp [List.dropWhile_cons_of_pos]
  | cons x q =>
      have short : ((x :: q).takeWhile (· != slash)).length ≤ (x :: q).length := (List.takeWhile_sublist _).length_le
      simp only [List.isEmpty_cons, Bool.false_eq_true, if_false, List.cons_append]
      rw [← List.cons_append, takeWhile_before_slash, List.drop_append_of_le_length (by rw [List.length_take]; omega)]

theorem pathNext_shorter (next : pathNext path = some (c, r)) : r.length < path.length := by
  unfold pathNext at next
  split at next
  · cases next
  · next x q hx =>
      simp only [Option.some.injEq, Prod.mk.injEq] at next
      obtain ⟨rfl, rfl⟩ := next
      have other : (x != slash) = true := by
        by_contra same
        have first := List.head?_dropWhile_not (· == slash) path
        rw [hx] at first
        simp_all
      have less : (path.dropWhile (· == slash)).length ≤ path.length := (List.dropWhile_sublist _).length_le
      rw [hx] at less
      rw [List.takeWhile_cons_of_pos (p := (· != slash)) other, List.length_drop, List.length_take, List.length_cons]
      rw [List.length_cons] at less ⊢
      omega

theorem pathSplit_fuel (hn : path.length ≤ n) (hm : path.length ≤ m) : pathSplit n path = pathSplit m path := by
  induction n generalizing m path with
  | zero =>
      obtain rfl := List.eq_nil_of_length_eq_zero (Nat.le_zero.mp hn)
      cases m <;> rfl
  | succ n ih =>
      cases m with
      | zero =>
          obtain rfl := List.eq_nil_of_length_eq_zero (Nat.le_zero.mp hm)
          rfl
      | succ m =>
          unfold pathSplit
          cases next : pathNext path with
          | none => rfl
          | some p =>
              obtain ⟨c, r⟩ := p
              have less := pathNext_shorter next
              dsimp only
              rw [ih (m := m) (by omega) (by omega)]

theorem pathSplit_append (hn : l.length ≤ n) (hm : (l ++ slash :: r).length ≤ m) :
    pathSplit m (l ++ slash :: r) = pathSplit n l ++ pathSplit r.length r := by
  have later (m : Nat) (hm : r.length ≤ m) (l : List UInt8) (none : pathNext l = none) :
      pathSplit (m + 1) (l ++ slash :: r) = pathSplit r.length r := by
    rw [← pathSplit_fuel (show r.length ≤ m + 1 by omega) (Nat.le_refl r.length)]
    unfold pathSplit
    rw [pathNext_append, none]
  rw [List.length_append, List.length_cons] at hm
  obtain ⟨m, rfl⟩ : ∃ k, m = k + 1 := ⟨m - 1, by omega⟩
  induction n generalizing m l with
  | zero =>
      obtain rfl := List.eq_nil_of_length_eq_zero (Nat.le_zero.mp hn)
      exact later m (by omega) [] rfl
  | succ n ih =>
      cases next : pathNext l with
      | none =>
          rw [later m (by omega) l next, pathSplit, next]
          rfl
      | some p =>
          obtain ⟨c, rest⟩ := p
          have less := pathNext_shorter next
          rw [pathSplit, pathNext_append, next, pathSplit, next]
          dsimp only
          obtain ⟨m, rfl⟩ : ∃ k, m = k + 1 := ⟨m - 1, by omega⟩
          rw [ih (by omega) m (by omega)]
          rfl

theorem pathComponents_append (l r : List UInt8) : pathComponents (l ++ slash :: r) = pathComponents l ++ pathComponents r :=
  pathSplit_append (Nat.le_refl _) (Nat.le_refl _)

theorem walk_append (a b : List (List UInt8)) : walk V D i (a ++ b) = (walk V D i a).bind fun j => walk V D j b := by
  induction a generalizing i with
  | nil => rfl
  | cons c a ih =>
      rw [List.cons_append, walk, walk]
      split
      · cases lookup (D i) c with
        | none => rfl
        | some j => exact ih
      · rfl

theorem resolve_append (l r : List UInt8) : resolve V D (l ++ slash :: r) = (resolve V D l).bind fun j => walk V D j (pathComponents r) := by
  unfold resolve
  rw [pathComponents_append, walk_append]

theorem lastSlash_none (absent : lastSlash l = none) : slash ∉ l := by
  induction l with
  | nil => exact List.not_mem_nil
  | cons c cs ih =>
      rw [lastSlash] at absent
      split at absent
      · cases absent
      · next rest =>
          split at absent
          · cases absent
          · next other => simp [ih rest, Ne.symm other]

theorem lastSlash_some (last : lastSlash l = some k) : l = l.take k ++ slash :: l.drop (k + 1) ∧ slash ∉ l.drop (k + 1) := by
  induction l generalizing k with
  | nil => cases last
  | cons c cs ih =>
      rw [lastSlash] at last
      cases later : lastSlash cs with
      | some i =>
          rw [later] at last
          obtain rfl : i + 1 = k := Option.some.inj last
          obtain ⟨split, none⟩ := ih later
          exact ⟨congrArg (c :: ·) split, none⟩
      | none =>
          rw [later] at last
          dsimp only at last
          split at last
          · next same =>
              obtain rfl : 0 = k := Option.some.inj last
              rw [same]
              exact ⟨rfl, lastSlash_none later⟩
          · cases last

theorem parentOf_of_prefix (last : lastSlash path = some k) (found : resolve V D (path.take k) = some p) : ∃ q, parentOf V D path = some q := by
  unfold parentOf splitParent
  cases short : lastSlash (path.take 509) with
  | none => exact ⟨1, rfl⟩
  | some i =>
      obtain ⟨cut, -⟩ := lastSlash_some short
      obtain ⟨whole, after⟩ := lastSlash_some last
      generalize parent : (path.take 509).take i = a at cut
      have split : path = a ++ slash :: ((path.take 509).drop (i + 1) ++ path.drop 509) := by
        rw [← List.cons_append, ← List.append_assoc, ← cut, List.take_append_drop]
      generalize (path.take 509).drop (i + 1) ++ path.drop 509 = rest at split
      have ordered : a.length ≤ k := by
        by_contra less
        refine after ?_
        rw [split, List.drop_append_of_le_length (by omega)]
        simp
      change ∃ q, resolve V D ((path.take 509).take i) = some q
      rw [parent]
      rcases Nat.eq_or_lt_of_le ordered with same | less
      · rw [split, ← same, List.take_left] at found
        exact ⟨p, found⟩
      · obtain ⟨n, rfl⟩ : ∃ n, k = a.length + (n + 1) := ⟨k - a.length - 1, by omega⟩
        rw [split, List.take_length_add_append, List.take_succ_cons, resolve_append] at found
        obtain ⟨q, here, -⟩ := Option.bind_eq_some_iff.mp found
        exact ⟨q, here⟩

end SwiftBSD.Proof.Fs
