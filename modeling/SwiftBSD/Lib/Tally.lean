import Mathlib.Algebra.BigOperators.Group.Finset.Basic
import Mathlib.Algebra.Order.BigOperators.Group.Finset

namespace SwiftBSD.Lib

structure Tally where
  groups : Nat
  size : Nat
  taken : Nat → Nat → Bool
  count : Nat → UInt32
  total : UInt64

namespace Tally
variable {T U W : Tally} {g h i j : Nat} {value : Bool}

def free (T : Tally) (g : Nat) : Finset Nat := (Finset.range T.size).filter fun i => T.taken g i = false

def freeTotal (T : Tally) : Nat := ∑ g ∈ Finset.range T.groups, (T.free g).card

/-- By how much the count of group `g` is too large. -/
def excess (T : Tally) (g : Nat) : Int := (T.count g).toNat - (T.free g).card

def excessTotal (T : Tally) : Int := T.total.toNat - T.freeTotal

theorem mem_free : i ∈ T.free g ↔ i < T.size ∧ T.taken g i = false := by
  unfold free
  rw [Finset.mem_filter, Finset.mem_range]

theorem free_card_le (g : Nat) : (T.free g).card ≤ T.size := by
  refine (Finset.card_filter_le _ _).trans ?_
  rw [Finset.card_range]

theorem freeTotal_le : T.freeTotal ≤ T.groups * T.size := by
  refine (Finset.sum_le_card_nsmul _ _ T.size fun g _ => free_card_le g).trans ?_
  rw [Finset.card_range, Nat.nsmul_eq_mul]

/-- Slot `i` of group `g` becomes taken (`value`) or free, and the counts follow. -/
structure Moved (T U : Tally) (g i : Nat) (value : Bool) : Prop where
  groups : U.groups = T.groups
  size : U.size = T.size
  inside : g < T.groups
  small : i < T.size
  before : T.taken g i = !value
  after : ∀ h < T.groups, ∀ j < T.size, U.taken h j = if h = g ∧ j = i then value else T.taken h j
  count : U.count g = if value then T.count g - 1 else T.count g + 1
  other : ∀ h < T.groups, h ≠ g → U.count h = T.count h
  total : U.total = if value then T.total - 1 else T.total + 1
  -- a group whose count is 0 gives nothing
  counted : value = true → T.count g ≠ 0

section Moved
variable (moved : Moved T U g i value)
include moved

theorem Moved.free_other (inside : h < T.groups) (ne : h ≠ g) : U.free h = T.free h := by
  ext j
  rw [mem_free, mem_free, moved.size]
  refine and_congr_right fun small => ?_
  rw [moved.after h inside j small, if_neg fun same => ne same.1]

theorem Moved.free_here : (U.free g).card + (if value then 1 else 0) = (T.free g).card + (if value then 0 else 1) := by
  have before := moved.before
  cases value with
  | true =>
      have here : i ∈ T.free g := mem_free.mpr ⟨moved.small, before⟩
      have rest : U.free g = (T.free g).erase i := by
        ext j
        rw [Finset.mem_erase, mem_free, mem_free, moved.size, and_left_comm]
        refine and_congr_right fun small => ?_
        rw [moved.after g moved.inside j small]
        by_cases same : j = i
        · simp [same]
        · simp [same]
      have positive := Finset.card_pos.mpr ⟨i, here⟩
      rw [rest, Finset.card_erase_of_mem here]
      simp only [if_true]
      omega
  | false =>
      have absent : i ∉ T.free g := by
        rw [mem_free, before]
        simp
      have more : U.free g = insert i (T.free g) := by
        ext j
        rw [Finset.mem_insert, mem_free, mem_free, moved.size]
        by_cases same : j = i
        · subst same
          simp [moved.small, moved.after g moved.inside j moved.small]
        · simp only [same, false_or]
          refine and_congr_right fun small => ?_
          rw [moved.after g moved.inside j small, if_neg fun both => same both.2]
      rw [more, Finset.card_insert_of_notMem absent]
      simp

theorem Moved.freeTotal_moved : U.freeTotal + (T.free g).card = T.freeTotal + (U.free g).card := by
  have here : g ∈ Finset.range T.groups := Finset.mem_range.mpr moved.inside
  have rest : ∑ h ∈ (Finset.range T.groups).erase g, (U.free h).card = ∑ h ∈ (Finset.range T.groups).erase g, (T.free h).card :=
    Finset.sum_congr rfl fun h member => by
      rw [moved.free_other (Finset.mem_range.mp (Finset.mem_of_mem_erase member)) (Finset.ne_of_mem_erase member)]
  unfold freeTotal
  rw [moved.groups, ← Finset.add_sum_erase _ _ here, ← Finset.add_sum_erase _ (fun h => (T.free h).card) here, rest]
  omega

end Moved

/-- The counts keep their distance from the free slots, as the numbers of 32 and 64 bits that they are, and as integers as long as they
have room. -/
structure Balanced (T U : Tally) : Prop where
  groups : U.groups = T.groups
  size : U.size = T.size
  group : ∀ g < T.groups, (4294967296 : Int) ∣ U.excess g - T.excess g
  groupExact : ∀ g < T.groups, T.excess g + T.size < 4294967296 → U.excess g = T.excess g
  total : (18446744073709551616 : Int) ∣ U.excessTotal - T.excessTotal
  totalExact : 0 ≤ T.excessTotal → T.excessTotal + T.groups * T.size < 18446744073709551616 → U.excessTotal = T.excessTotal

theorem Balanced.refl (T : Tally) : Balanced T T where
  groups := rfl
  size := rfl
  group := fun g _ => by rw [sub_self]; exact Int.dvd_zero _
  groupExact := fun _ _ _ => rfl
  total := by rw [sub_self]; exact Int.dvd_zero _
  totalExact := fun _ _ => rfl

theorem Balanced.trans (first : Balanced T U) (second : Balanced U W) : Balanced T W where
  groups := second.groups.trans first.groups
  size := second.size.trans first.size
  group := fun g inside => by
    have := Int.dvd_add (second.group g (first.groups ▸ inside)) (first.group g inside)
    rwa [sub_add_sub_cancel] at this
  groupExact := fun g inside room => by
    have same := first.groupExact g inside room
    rw [second.groupExact g (first.groups ▸ inside) (by rwa [same, first.size]), same]
  total := by
    have := Int.dvd_add second.total first.total
    rwa [sub_add_sub_cancel] at this
  totalExact := fun enough room => by
    have same := first.totalExact enough room
    rw [second.totalExact (by rwa [same]) (by rwa [same, first.groups, first.size]), same]

theorem Moved.balanced (moved : Moved T U g i value) : Balanced T U := by
  have here := moved.free_here
  have total := moved.freeTotal_moved
  have few := free_card_le (T := U) g
  have few' := free_card_le (T := T) g
  have all := freeTotal_le (T := U)
  rw [moved.groups] at all
  rw [moved.size] at few all
  have count := congrArg UInt32.toNat moved.count
  have free := congrArg UInt64.toNat moved.total
  have small := (T.count g).toNat_lt
  have small' := T.total.toNat_lt
  have counted : value = true → (T.count g).toNat ≠ 0 := fun taken zero => moved.counted taken (UInt32.toNat_inj.mp zero)
  refine ⟨moved.groups, moved.size, fun h inside => ?_, fun h inside room => ?_, ?_, fun enough room => ?_⟩
  · by_cases same : h = g
    · subst same
      unfold excess
      cases value <;> simp only [if_true, Bool.false_eq_true, if_false, UInt32.toNat_sub, UInt32.toNat_add, UInt32.toNat_one] at here count
      · omega
      · omega
    · unfold excess
      rw [moved.free_other inside same, moved.other h inside same, sub_self]
      exact Int.dvd_zero _
  · by_cases same : h = g
    · subst same
      unfold excess at room ⊢
      cases value <;> simp only [if_true, Bool.false_eq_true, if_false, UInt32.toNat_sub, UInt32.toNat_add, UInt32.toNat_one] at here count
      · omega
      · have := counted rfl
        omega
    · unfold excess
      rw [moved.free_other inside same, moved.other h inside same]
  · unfold excessTotal
    cases value <;> simp only [if_true, Bool.false_eq_true, if_false, UInt64.toNat_sub, UInt64.toNat_add, UInt64.toNat_one] at here free
    · omega
    · omega
  · unfold excessTotal at enough room ⊢
    cases value <;> simp only [if_true, Bool.false_eq_true, if_false, UInt64.toNat_sub, UInt64.toNat_add, UInt64.toNat_one] at here free
    · have : (U.freeTotal : Int) ≤ T.groups * T.size := by exact_mod_cast all
      omega
    · omega

end Tally

end SwiftBSD.Lib
