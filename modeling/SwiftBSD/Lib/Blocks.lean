import Mathlib.Data.List.Basic
import Mathlib.Tactic.Common

namespace SwiftBSD.Lib

structure Tile where
  size : Nat
  free : Bool

namespace Tile

variable {h k n o p place : Nat} {b : Tile} {bs cs : List Tile} {x y : Nat × Tile}

def span (h : Nat) : List Tile → Nat
  | [] => 0
  | b :: bs => h + b.size + span h bs

/-- The blocks from `o` on, with the places of their headers. -/
def placed (h : Nat) : Nat → List Tile → List (Nat × Tile)
  | _, [] => []
  | o, b :: bs => (o, b) :: placed h (o + h + b.size) bs

def split (h n : Nat) (b : Tile) : List Tile :=
  if n + h < b.size then [⟨n, false⟩, ⟨b.size - n - h, true⟩] else [⟨b.size, false⟩]

def firstFit (h n : Nat) : Nat → List Tile → Option (Nat × List Tile)
  | _, [] => none
  | o, b :: bs =>
      if b.free = true ∧ n ≤ b.size then some (o, split h n b ++ bs)
      else (firstFit h n (o + h + b.size) bs).map fun r => (r.1, b :: r.2)

def release (h place : Nat) : Nat → List Tile → List Tile
  | _, [] => []
  | o, b :: bs => if o = place then ⟨b.size, true⟩ :: bs else b :: release h place (o + h + b.size) bs

/-- One pass that joins a free block with a free block behind it. -/
def merge (h : Nat) : List Tile → List Tile
  | a :: b :: bs =>
      if a.free = true ∧ b.free = true then ⟨a.size + (h + b.size), true⟩ :: merge h bs else a :: merge h (b :: bs)
  | [b] => [b]
  | [] => []

theorem placed_inside (member : x ∈ placed h o bs) : o ≤ x.1 ∧ x.1 + h + x.2.size ≤ o + span h bs := by
  induction bs generalizing o with
  | nil => cases member
  | cons b bs ih =>
      unfold span
      rcases List.mem_cons.mp member with rfl | later
      · exact ⟨Nat.le_refl _, by dsimp only; omega⟩
      · obtain ⟨lower, upper⟩ := ih later
        exact ⟨by omega, by omega⟩

theorem placed_cases (mx : x ∈ placed h o bs) (my : y ∈ placed h o bs) :
    x = y ∨ x.1 + h + x.2.size ≤ y.1 ∨ y.1 + h + y.2.size ≤ x.1 := by
  induction bs generalizing o with
  | nil => cases mx
  | cons b bs ih =>
      rcases List.mem_cons.mp mx with rfl | mx <;> rcases List.mem_cons.mp my with rfl | my
      · exact .inl rfl
      · exact .inr (.inl (placed_inside my).1)
      · exact .inr (.inr (placed_inside mx).1)
      · exact ih mx my

theorem length_le_span : h * bs.length ≤ span h bs := by
  induction bs with
  | nil => exact Nat.zero_le _
  | cons b bs ih =>
      change h * (bs.length + 1) ≤ h + b.size + span h bs
      rw [Nat.mul_succ]
      omega

theorem span_append : span h (bs ++ cs) = span h bs + span h cs := by
  induction bs with
  | nil => exact (Nat.zero_add _).symm
  | cons b bs ih =>
      change h + b.size + span h (bs ++ cs) = h + b.size + span h bs + span h cs
      omega

theorem placed_append : placed h o (bs ++ cs) = placed h o bs ++ placed h (o + span h bs) cs := by
  induction bs generalizing o with
  | nil => rfl
  | cons b bs ih =>
      change (o, b) :: placed h _ (bs ++ cs) = (o, b) :: (placed h _ bs ++ placed h (o + (h + b.size + span h bs)) cs)
      rw [ih]
      congr 3
      omega

theorem span_split : span h (split h n b) = h + b.size := by
  unfold split
  split
  · change h + n + (h + (b.size - n - h) + 0) = _
    omega
  · rfl

theorem split_head (h n : Nat) (b : Tile) : ∃ c cs, split h n b = c :: cs ∧ c.free = false ∧ (n ≤ b.size → n ≤ c.size) := by
  unfold split
  split
  · exact ⟨_, _, rfl, rfl, fun _ => Nat.le_refl n⟩
  · exact ⟨_, _, rfl, rfl, id⟩

theorem firstFit_none : firstFit h n o bs = none ↔ ∀ b ∈ bs, b.free = true → b.size < n := by
  induction bs generalizing o with
  | nil => exact ⟨fun _ b member => (by cases member), fun _ => rfl⟩
  | cons b bs ih =>
      unfold firstFit
      rw [List.forall_mem_cons]
      split
      · next fits =>
          refine ⟨fun impossible => (by cases impossible), fun all => ?_⟩
          have := all.1 fits.1
          omega
      · next other =>
          rw [Option.map_eq_none_iff, ih]
          refine ⟨fun rest => ⟨fun free => ?_, rest⟩, fun all => all.2⟩
          by_contra large
          exact other ⟨free, by omega⟩

theorem span_firstFit (found : firstFit h n o bs = some (p, cs)) : span h cs = span h bs := by
  induction bs generalizing o p cs with
  | nil => cases found
  | cons b bs ih =>
      unfold firstFit at found
      split at found
      · next fits =>
          cases found
          rw [span_append, span_split]
          rfl
      · obtain ⟨⟨q, ds⟩, rest, same⟩ := Option.map_eq_some_iff.mp found
        cases same
        change h + b.size + span h ds = h + b.size + span h bs
        rw [ih rest]

theorem firstFit_free (found : firstFit h n o bs = some (p, cs)) : ∃ b, (p, b) ∈ placed h o bs ∧ b.free = true := by
  induction bs generalizing o p cs with
  | nil => cases found
  | cons b bs ih =>
      unfold firstFit at found
      split at found
      · next fits =>
          cases found
          exact ⟨b, List.mem_cons_self, fits.1⟩
      · obtain ⟨⟨q, ds⟩, rest, same⟩ := Option.map_eq_some_iff.mp found
        cases same
        obtain ⟨c, member, free⟩ := ih rest
        exact ⟨c, List.mem_cons_of_mem _ member, free⟩

theorem firstFit_used (found : firstFit h n o bs = some (p, cs)) : ∃ b, (p, b) ∈ placed h o cs ∧ b.free = false ∧ n ≤ b.size := by
  induction bs generalizing o p cs with
  | nil => cases found
  | cons b bs ih =>
      unfold firstFit at found
      split at found
      · next fits =>
          cases found
          obtain ⟨c, ds, same, used, enough⟩ := split_head h n b
          rw [same]
          exact ⟨c, List.mem_cons_self, used, enough fits.2⟩
      · obtain ⟨⟨q, ds⟩, rest, same⟩ := Option.map_eq_some_iff.mp found
        cases same
        obtain ⟨c, member, used⟩ := ih rest
        exact ⟨c, List.mem_cons_of_mem _ member, used⟩

theorem firstFit_keeps (found : firstFit h n o bs = some (p, cs)) (member : x ∈ placed h o bs) (used : x.2.free = false) :
    x ∈ placed h o cs := by
  induction bs generalizing o p cs with
  | nil => cases found
  | cons b bs ih =>
      unfold firstFit at found
      split at found
      · next fits =>
          cases found
          rcases List.mem_cons.mp member with rfl | later
          · rw [fits.1] at used
            cases used
          · rw [placed_append, span_split, ← Nat.add_assoc]
            exact List.mem_append_right _ later
      · obtain ⟨⟨q, ds⟩, rest, same⟩ := Option.map_eq_some_iff.mp found
        cases same
        rcases List.mem_cons.mp member with rfl | later
        · exact List.mem_cons_self
        · exact List.mem_cons_of_mem _ (ih rest later)

theorem firstFit_dvd (unit : k ∣ h) (size : k ∣ n) (all : ∀ b ∈ bs, k ∣ b.size) (found : firstFit h n o bs = some (p, cs)) :
    ∀ c ∈ cs, k ∣ c.size := by
  induction bs generalizing o p cs with
  | nil => cases found
  | cons b bs ih =>
      obtain ⟨first, others⟩ := List.forall_mem_cons.mp all
      unfold firstFit at found
      split at found
      · cases found
        refine List.forall_mem_append.mpr ⟨?_, others⟩
        unfold split
        split
        · refine List.forall_mem_cons.mpr ⟨size, List.forall_mem_singleton.mpr ?_⟩
          exact Nat.dvd_sub (Nat.dvd_sub first size) unit
        · exact List.forall_mem_singleton.mpr first
      · obtain ⟨⟨q, ds⟩, rest, same⟩ := Option.map_eq_some_iff.mp found
        cases same
        exact List.forall_mem_cons.mpr ⟨first, ih others rest⟩

theorem span_release : span h (release h place o bs) = span h bs := by
  induction bs generalizing o with
  | nil => rfl
  | cons b bs ih =>
      unfold release
      split
      · rfl
      · change h + b.size + span h (release h place _ bs) = h + b.size + span h bs
        rw [ih]

theorem release_keeps (member : x ∈ placed h o bs) (other : x.1 ≠ place) : x ∈ placed h o (release h place o bs) := by
  induction bs generalizing o with
  | nil => cases member
  | cons b bs ih =>
      unfold release
      split
      · next here =>
          rcases List.mem_cons.mp member with rfl | later
          · exact (other here).elim
          · exact List.mem_cons_of_mem _ later
      · rcases List.mem_cons.mp member with rfl | later
        · exact List.mem_cons_self
        · exact List.mem_cons_of_mem _ (ih later)

theorem release_dvd (all : ∀ b ∈ bs, k ∣ b.size) : ∀ b ∈ release h place o bs, k ∣ b.size := by
  induction bs generalizing o with
  | nil => exact all
  | cons b bs ih =>
      obtain ⟨first, others⟩ := List.forall_mem_cons.mp all
      unfold release
      split
      · exact List.forall_mem_cons.mpr ⟨first, others⟩
      · exact List.forall_mem_cons.mpr ⟨first, ih others⟩

theorem span_merge : span h (merge h bs) = span h bs := by
  fun_induction merge h bs with
  | case1 a b bs free ih =>
      change h + (a.size + (h + b.size)) + span h (merge h bs) = h + a.size + (h + b.size + span h bs)
      omega
  | case2 a b bs other ih =>
      change h + a.size + span h (merge h (b :: bs)) = h + a.size + span h (b :: bs)
      rw [ih]
  | case3 => rfl
  | case4 => rfl

theorem merge_keeps (member : x ∈ placed h o bs) (used : x.2.free = false) : x ∈ placed h o (merge h bs) := by
  fun_induction merge h bs generalizing o with
  | case1 a b bs free ih =>
      rcases List.mem_cons.mp member with rfl | member
      · rw [free.1] at used
        cases used
      rcases List.mem_cons.mp member with rfl | later
      · rw [free.2] at used
        cases used
      · have place : o + h + (a.size + (h + b.size)) = o + h + a.size + h + b.size := by omega
        refine List.mem_cons_of_mem _ ?_
        rw [place]
        exact ih later
  | case2 a b bs other ih =>
      rcases List.mem_cons.mp member with rfl | later
      · exact List.mem_cons_self
      · exact List.mem_cons_of_mem _ (ih later)
  | case3 => exact member
  | case4 => exact member

theorem merge_dvd (unit : k ∣ h) (all : ∀ b ∈ bs, k ∣ b.size) : ∀ b ∈ merge h bs, k ∣ b.size := by
  fun_induction merge h bs with
  | case1 a b bs free ih =>
      obtain ⟨first, rest⟩ := List.forall_mem_cons.mp all
      obtain ⟨second, others⟩ := List.forall_mem_cons.mp rest
      exact List.forall_mem_cons.mpr ⟨Nat.dvd_add first (Nat.dvd_add unit second), ih others⟩
  | case2 a b bs other ih =>
      obtain ⟨first, rest⟩ := List.forall_mem_cons.mp all
      exact List.forall_mem_cons.mpr ⟨first, ih rest⟩
  | case3 => exact all
  | case4 => exact all

end Tile
end SwiftBSD.Lib
