import Mathlib.Data.List.Chain
import SwiftBSD.Lib.Blocks

namespace SwiftBSD.Lib.Tile

variable {h n o p place : Nat} {a b c x : Tile} {bs cs l r : List Tile}

def Tidy (bs : List Tile) : Prop := bs.IsChain fun a b => ¬ (a.free = true ∧ b.free = true)

/-- The block at `place` has a free block on both sides. -/
def Flanked (h place o : Nat) (bs : List Tile) : Prop :=
  ∃ l a b c r, bs = l ++ a :: b :: c :: r ∧ place = o + span h l + h + a.size ∧ a.free = true ∧ c.free = true

theorem tidy_cons_cons : Tidy (a :: b :: bs) ↔ ¬ (a.free = true ∧ b.free = true) ∧ Tidy (b :: bs) := List.isChain_cons_cons

theorem Tidy.tail (tidy : Tidy (b :: bs)) : Tidy bs := List.IsChain.tail tidy

theorem tidy_cons_used (used : a.free = false) : Tidy (a :: bs) ↔ Tidy bs := by
  cases bs with
  | nil => exact ⟨fun _ => .nil, fun _ => .singleton _⟩
  | cons b bs =>
      rw [tidy_cons_cons]
      have other : ¬ (a.free = true ∧ b.free = true) := fun both => by simp [used] at both
      exact and_iff_right other

theorem tidy_cons_free (free : a.free = true) : Tidy (a :: bs) ↔ (∀ b ∈ bs.head?, b.free = false) ∧ Tidy bs := by
  cases bs with
  | nil => exact ⟨fun _ => ⟨fun b none => (by cases none), .nil⟩, fun _ => .singleton _⟩
  | cons b bs =>
      rw [tidy_cons_cons]
      simp [free]

theorem tidy_firstFit (tidy : Tidy bs) (found : firstFit h n o bs = some (p, cs)) :
    Tidy cs ∧ ∀ c ∈ cs.head?, c.free = true → ∀ b ∈ bs.head?, b.free = true := by
  induction bs generalizing o p cs with
  | nil => cases found
  | cons b bs ih =>
      unfold firstFit at found
      split at found
      · next fits =>
          cases found
          obtain ⟨behind, rest⟩ := (tidy_cons_free fits.1).mp tidy
          unfold split
          split
          · refine ⟨(tidy_cons_used rfl).mpr ((tidy_cons_free rfl).mpr ⟨behind, rest⟩), fun c first free => ?_⟩
            cases first
            cases free
          · refine ⟨(tidy_cons_used rfl).mpr rest, fun c first free => ?_⟩
            cases first
            cases free
      · obtain ⟨⟨q, ds⟩, rest, same⟩ := Option.map_eq_some_iff.mp found
        cases same
        obtain ⟨tidy', first⟩ := ih tidy.tail rest
        refine ⟨?_, fun c here free b' here' => ?_⟩
        · by_cases free : b.free = true
          · obtain ⟨behind, -⟩ := (tidy_cons_free free).mp tidy
            refine (tidy_cons_free free).mpr ⟨fun d front => eq_false_of_ne_true fun freed => ?_, tidy'⟩
            cases bs with
            | nil => cases rest
            | cons e bs =>
                have now := first d front freed e rfl
                rw [behind e rfl] at now
                cases now
          · exact (tidy_cons_used (eq_false_of_ne_true free)).mpr tidy'
        · cases here
          cases here'
          exact free

theorem merge_tidy (tidy : Tidy bs) : merge h bs = bs := by
  fun_induction merge h bs with
  | case1 a b bs free ih => exact ((tidy_cons_cons.mp tidy).1 free).elim
  | case2 a b bs other ih => rw [ih tidy.tail]
  | case3 => rfl
  | case4 => rfl

theorem merge_append (tidy : Tidy (l ++ [x])) : merge h (l ++ x :: r) = l ++ merge h (x :: r) := by
  induction l with
  | nil => rfl
  | cons a l ih =>
      cases l with
      | nil =>
          change merge h (a :: x :: r) = _
          rw [merge, if_neg (tidy_cons_cons.mp tidy).1]
          rfl
      | cons b l =>
          change merge h (a :: b :: (l ++ x :: r)) = _
          rw [merge, if_neg (tidy_cons_cons.mp tidy).1]
          exact congrArg (a :: ·) (ih tidy.tail)

theorem release_split (positive : 0 < h) (member : (place, b) ∈ placed h o bs) : ∃ l r, bs = l ++ b :: r ∧ place = o + span h l ∧
    release h place o bs = l ++ ⟨b.size, true⟩ :: r := by
  induction bs generalizing o with
  | nil => cases member
  | cons d bs ih =>
      rcases List.mem_cons.mp member with same | later
      · cases same
        exact ⟨[], bs, rfl, rfl, if_pos rfl⟩
      · obtain ⟨l, r, parts, at_, released⟩ := ih later
        have behind := (placed_inside later).1
        refine ⟨d :: l, r, by rw [parts]; rfl, ?_, ?_⟩
        · change place = o + (h + d.size + span h l)
          omega
        · unfold release
          rw [if_neg (by dsimp only at behind; omega), released]
          rfl

theorem tidy_split : Tidy (l ++ x :: r) ↔ Tidy (l ++ [x]) ∧ Tidy (x :: r) := List.isChain_split

theorem tidy_snoc : Tidy (l ++ [x]) ↔ Tidy l ∧ ∀ a ∈ l.getLast?, ¬ (a.free = true ∧ x.free = true) := by
  unfold Tidy
  rw [List.isChain_append]
  simp

theorem tidy_snoc_congr (same : x.free = a.free) : Tidy (l ++ [x]) ↔ Tidy (l ++ [a]) := by rw [tidy_snoc, tidy_snoc, same]

theorem split_unique {l' r' : List Tile} (positive : 0 < h) (same : l ++ b :: r = l' ++ a :: r') (at_ : span h l = span h l') :
    l = l' ∧ b = a ∧ r = r' := by
  induction l generalizing l' with
  | nil =>
      cases l' with
      | nil => exact ⟨rfl, List.cons.inj same⟩
      | cons d l' =>
          change 0 = h + d.size + span h l' at at_
          omega
  | cons d l ih =>
      cases l' with
      | nil =>
          change h + d.size + span h l = 0 at at_
          omega
      | cons e l' =>
          obtain ⟨rfl, rest⟩ := List.cons.inj same
          change h + d.size + span h l = h + d.size + span h l' at at_
          obtain ⟨rfl, others⟩ := ih rest (by omega)
          exact ⟨rfl, others⟩

theorem tidy_merge_release (positive : 0 < h) (tidy : Tidy bs) (member : (place, b) ∈ placed h o bs) :
    Tidy (merge h (release h place o bs)) ↔ ¬ Flanked h place o bs := by
  obtain ⟨l, r, rfl, at_, released⟩ := release_split positive member
  obtain ⟨left, right⟩ := tidy_split.mp tidy
  have behind : Tidy r := right.tail
  have before : Tidy l := (tidy_snoc.mp left).1
  rw [released]
  by_cases free : ∃ a ∈ l.getLast?, a.free = true
  · obtain ⟨a, last, free⟩ := free
    obtain ⟨l, rfl⟩ := List.getLast?_eq_some_iff.mp last
    have result : merge h (l ++ [a] ++ ⟨b.size, true⟩ :: r) = l ++ ⟨a.size + (h + b.size), true⟩ :: r := by
      rw [List.append_assoc]
      change merge h (l ++ a :: ⟨b.size, true⟩ :: r) = _
      rw [merge_append before, merge, if_pos ⟨free, rfl⟩, merge_tidy behind]
    have joined : Tidy (l ++ [⟨a.size + (h + b.size), true⟩]) := (tidy_snoc_congr free.symm).mpr before
    rw [result, tidy_split, and_iff_right joined, tidy_cons_free rfl, and_iff_left behind]
    constructor
    · rintro apart ⟨l', a', b', c, r', parts, at', -, freeC⟩
      have same : l ++ [a] ++ b :: r = l' ++ [a'] ++ b' :: c :: r' := by
        rw [parts]
        simp
      have spans : span h (l ++ [a]) = span h (l' ++ [a']) := by
        have right : span h (l' ++ [a']) = span h l' + span h [a'] := span_append
        rw [right]
        change _ = span h l' + (h + a'.size + 0)
        omega
      obtain ⟨-, -, rfl⟩ := split_unique positive same spans
      have now := apart c rfl
      rw [now] at freeC
      cases freeC
    · intro not c first
      refine eq_false_of_ne_true fun freeC => not ?_
      obtain ⟨r, rfl⟩ : ∃ r', r = c :: r' := by
        cases r with
        | nil => cases first
        | cons d r =>
            cases first
            exact ⟨r, rfl⟩
      refine ⟨l, a, b, c, r, by simp, ?_, free, freeC⟩
      rw [at_, span_append]
      change o + (span h l + (h + a.size + 0)) = _
      omega
  · have first : Tidy (l ++ [⟨b.size, true⟩]) := tidy_snoc.mpr ⟨before, fun a last both => free ⟨a, last, both.1⟩⟩
    have result : Tidy (merge h (l ++ ⟨b.size, true⟩ :: r)) := by
      rw [merge_append first]
      cases r with
      | nil => exact first
      | cons c r =>
          by_cases freeC : c.free = true
          · obtain ⟨next, rest⟩ := (tidy_cons_free freeC).mp behind
            rw [merge, if_pos ⟨rfl, freeC⟩, merge_tidy rest]
            have joined : Tidy (l ++ [⟨b.size + (h + c.size), true⟩]) :=
              (tidy_snoc_congr (x := ⟨b.size + (h + c.size), true⟩) (a := ⟨b.size, true⟩) rfl).mpr first
            exact tidy_split.mpr ⟨joined, (tidy_cons_free rfl).mpr ⟨next, rest⟩⟩
          · rw [merge, if_neg fun both => freeC both.2, merge_tidy behind]
            refine tidy_split.mpr ⟨first, (tidy_cons_free rfl).mpr ⟨fun d next => ?_, behind⟩⟩
            cases next
            exact eq_false_of_ne_true freeC
    refine iff_of_true result ?_
    rintro ⟨l', a, b', c, r', parts, at', freeA, -⟩
    have same : l ++ b :: r = l' ++ [a] ++ b' :: c :: r' := by
      rw [parts]
      simp
    have spans : span h l = span h (l' ++ [a]) := by
      rw [span_append]
      change _ = span h l' + (h + a.size + 0)
      omega
    obtain ⟨rfl, -, -⟩ := split_unique positive same spans
    exact free ⟨a, by simp, freeA⟩

theorem firstFit_back {y : Nat × Tile} (found : firstFit h n o bs = some (p, cs)) (member : y ∈ placed h o cs) (used : y.2.free = false) :
    y.1 = p ∨ y ∈ placed h o bs := by
  induction bs generalizing o p cs with
  | nil => cases found
  | cons b bs ih =>
      unfold firstFit at found
      split at found
      · next fits =>
          cases found
          rw [placed_append, span_split, ← Nat.add_assoc] at member
          rcases List.mem_append.mp member with here | later
          · unfold split at here
            split at here
            · rcases List.mem_cons.mp here with rfl | rest
              · exact .inl rfl
              · cases List.mem_singleton.mp rest
                cases used
            · cases List.mem_singleton.mp here
              exact .inl rfl
          · exact .inr (List.mem_cons_of_mem _ later)
      · obtain ⟨⟨q, ds⟩, rest, same⟩ := Option.map_eq_some_iff.mp found
        cases same
        rcases List.mem_cons.mp member with rfl | later
        · exact .inr List.mem_cons_self
        · exact (ih rest later).imp_right (List.mem_cons_of_mem _)

theorem merge_back {y : Nat × Tile} (member : y ∈ placed h o (merge h bs)) (used : y.2.free = false) : y ∈ placed h o bs := by
  fun_induction merge h bs generalizing o with
  | case1 a b bs free ih =>
      rcases List.mem_cons.mp member with rfl | later
      · cases used
      · have place : o + h + (a.size + (h + b.size)) = o + h + a.size + h + b.size := by omega
        rw [place] at later
        exact List.mem_cons_of_mem _ (List.mem_cons_of_mem _ (ih later))
  | case2 a b bs other ih =>
      rcases List.mem_cons.mp member with rfl | later
      · exact List.mem_cons_self
      · exact List.mem_cons_of_mem _ (ih later)
  | case3 => exact member
  | case4 => exact member

theorem release_back {y : Nat × Tile} (positive : 0 < h) (member : y ∈ placed h o (release h place o bs)) (used : y.2.free = false) :
    y ∈ placed h o bs ∧ y.1 ≠ place := by
  induction bs generalizing o with
  | nil => cases member
  | cons b bs ih =>
      unfold release at member
      split at member
      · next here =>
          rcases List.mem_cons.mp member with rfl | later
          · cases used
          · have behind := (placed_inside later).1
            exact ⟨List.mem_cons_of_mem _ later, by dsimp only at behind; omega⟩
      · next other =>
          rcases List.mem_cons.mp member with rfl | later
          · exact ⟨List.mem_cons_self, other⟩
          · obtain ⟨inside, apart⟩ := ih later
            exact ⟨List.mem_cons_of_mem _ inside, apart⟩

theorem exists_placed (member : b ∈ bs) : ∃ q, (q, b) ∈ placed h o bs := by
  induction bs generalizing o with
  | nil => cases member
  | cons d bs ih =>
      rcases List.mem_cons.mp member with rfl | later
      · exact ⟨o, List.mem_cons_self⟩
      · obtain ⟨q, placed⟩ := ih (o := o + h + d.size) later
        exact ⟨q, List.mem_cons_of_mem _ placed⟩

theorem tidy_free (tidy : Tidy bs) (free : ∀ b ∈ bs, b.free = true) (some_ : bs ≠ []) : bs = [⟨span h bs - h, true⟩] := by
  cases bs with
  | nil => exact (some_ rfl).elim
  | cons a bs =>
      cases bs with
      | nil =>
          have here := free a List.mem_cons_self
          change [a] = [⟨h + a.size + 0 - h, true⟩]
          rw [Nat.add_zero, Nat.add_sub_cancel_left, ← here]
      | cons b bs =>
          exact ((tidy_cons_cons.mp tidy).1 ⟨free a List.mem_cons_self, free b (List.mem_cons_of_mem _ List.mem_cons_self)⟩).elim

end SwiftBSD.Lib.Tile
