import SwiftBSD.Mm.Walk
import Mathlib.Data.Nat.Bitwise

namespace SwiftBSD.Proof.Mm
open Lib SwiftBSD.Mm

variable {e : UInt64} {f g : Nat}

theorem toNat_and_mask {mask : UInt64} {k : Nat} (high : mask.toNat = (2 ^ (64 - k) - 1) <<< k) :
    (e &&& mask).toNat = 2 ^ k * (e.toNat / 2 ^ k) := by
  rw [UInt64.toNat_and, high]
  apply Nat.eq_of_testBit_eq
  intro i
  have low : 2 ^ k * (e.toNat / 2 ^ k) = (e.toNat >>> k) <<< k := by
    rw [Nat.shiftRight_eq_div_pow, Nat.shiftLeft_eq, Nat.mul_comm]
  rw [low, Nat.testBit_and, Nat.testBit_shiftLeft, Nat.testBit_shiftLeft, Nat.testBit_two_pow_sub_one,
    Nat.testBit_shiftRight]
  by_cases small : k ≤ i
  · by_cases large : i < 64
    · have : i - k < 64 - k := by omega
      simp [small, this, Nat.add_sub_of_le small]
    · have : e.toNat.testBit i = false :=
        Nat.testBit_lt_two_pow (Nat.lt_of_lt_of_le e.toNat_lt (Nat.pow_le_pow_right (by omega) (by omega)))
      simp [this, small, Nat.add_sub_of_le small]
  · simp [small]

theorem toNat_pageMask : (e &&& pageMask).toNat = 4096 * (e.toNat / 4096) :=
  toNat_and_mask (k := 12) rfl

theorem frameOf_pageMask : frameOf (e &&& pageMask) = frameOf e := by
  unfold frameOf
  rw [toNat_pageMask]
  omega

theorem toNat_addrOf (bound : f ≤ maxPages) : (addrOf f).toNat = 4096 * f := by
  unfold addrOf
  unfold maxPages at bound
  rw [UInt64.toNat_ofNat']
  omega

theorem frameOf_addrOf (bound : f ≤ maxPages) : frameOf (addrOf f) = f := by
  unfold frameOf
  rw [toNat_addrOf bound]
  omega

theorem addrOf_pageMask (bound : f ≤ maxPages) : addrOf f &&& pageMask = addrOf f := by
  apply UInt64.toNat_inj.mp
  rw [toNat_pageMask, toNat_addrOf bound]
  omega

theorem tableOf_eq : tableOf e = frameOf e % 2 ^ 40 := by
  unfold tableOf frameOf
  omega

theorem and_bit {flag : UInt64} {k : Nat} (power : flag.toNat = 2 ^ k) :
    e &&& flag = 0 ↔ e.toNat.testBit k = false := by
  rw [← UInt64.toNat_inj, UInt64.toNat_and, power, Nat.and_two_pow]
  cases e.toNat.testBit k <;> simp

theorem and_pgPresent : e &&& pgPresent = 0 ↔ e.toNat % 2 = 0 := by
  rw [and_bit (k := 0) rfl, Nat.testBit_eq_decide_div_mod_eq]
  simp

theorem and_pgWrite : e &&& pgWrite = 0 ↔ e.toNat / 2 % 2 = 0 := by
  rw [and_bit (k := 1) rfl, Nat.testBit_eq_decide_div_mod_eq]
  simp

theorem and_pgUser : e &&& pgUser = 0 ↔ e.toNat / 4 % 2 = 0 := by
  rw [and_bit (k := 2) rfl, Nat.testBit_eq_decide_div_mod_eq]
  simp

theorem and_pgHuge : e &&& pgHuge = 0 ↔ e.toNat / 128 % 2 = 0 := by
  rw [and_bit (k := 7) rfl, Nat.testBit_eq_decide_div_mod_eq]
  simp

theorem and_pgNx : e &&& pgNx = 0 ↔ e.toNat / 2 ^ 63 % 2 = 0 := by
  rw [and_bit (k := 63) rfl, Nat.testBit_eq_decide_div_mod_eq]
  simp

/-- The table an entry points to, as the kernel follows it. -/
def next (e : UInt64) : Option Nat :=
  if e &&& pgPresent = 0 then none else if e &&& pgHuge ≠ 0 then none else some (frameOf e)

/-- The entry the kernel writes for a table of the user half. -/
def tableEntry (g : Nat) : UInt64 := addrOf g &&& pageMask ||| pgPresent ||| pgWrite ||| pgUser

/-- A table entry as the kernel writes it, up to the bits the processor sets. -/
structure Plain (e : UInt64) : Prop where
  write : e &&& pgWrite ≠ 0
  user : e &&& pgUser ≠ 0
  bound : e.toNat < 2 ^ 52

theorem toNat_tableEntry (bound : g ≤ maxPages) : (tableEntry g).toNat = 4096 * g + 7 := by
  have split : tableEntry g = addrOf g ||| 7 := by
    unfold tableEntry
    rw [addrOf_pageMask bound, UInt64.or_assoc, UInt64.or_assoc]
    rfl
  have aligned : 4096 * g = 2 ^ 12 * g := rfl
  rw [split, UInt64.toNat_or, toNat_addrOf bound, aligned]
  exact (Nat.two_pow_add_eq_or_of_lt (by decide) g).symm

theorem next_tableEntry (bound : g ≤ maxPages) : next (tableEntry g) = some g := by
  have value := toNat_tableEntry bound
  unfold next
  rw [if_neg (by rw [and_pgPresent]; omega), if_neg (by rw [not_not, and_pgHuge]; omega)]
  unfold frameOf
  rw [value]
  congr 1
  omega

theorem plain_tableEntry (bound : g ≤ maxPages) : Plain (tableEntry g) := by
  have value := toNat_tableEntry bound
  refine ⟨?_, ?_, ?_⟩
  · rw [Ne, and_pgWrite]
    omega
  · rw [Ne, and_pgUser]
    omega
  · unfold maxPages at bound
    omega

theorem Plain.nx (plain : Plain e) : e &&& pgNx = 0 := by
  have := plain.bound
  rw [and_pgNx]
  omega

theorem Plain.tableOf (plain : Plain e) : tableOf e = frameOf e := by
  have := plain.bound
  unfold SwiftBSD.Mm.tableOf frameOf
  omega

theorem Plain.restrict (plain : Plain e) (t : Translation) : t.restrict e = t := by
  obtain ⟨phys, leaf, level, write, user, noExec⟩ := t
  simp [Translation.restrict, plain.write, plain.user, plain.nx]

/-- A present user page loses its write permission. -/
def cow (e : UInt64) : UInt64 :=
  if e &&& pgPresent ≠ 0 ∧ e &&& pgUser ≠ 0 then e &&& ~~~pgWrite else e

def cowCopy (e : UInt64) : UInt64 := if e &&& pgPresent = 0 then 0 else cow e

theorem noWrite_and {flag : UInt64} (other : ~~~pgWrite &&& flag = flag) : (e &&& ~~~pgWrite) &&& flag = e &&& flag := by
  rw [UInt64.and_assoc, other]

theorem cow_and {flag : UInt64} (other : ~~~pgWrite &&& flag = flag) : cow e &&& flag = e &&& flag := by
  unfold cow
  split
  · exact noWrite_and other
  · rfl

theorem cow_present : cow e &&& pgPresent = e &&& pgPresent := cow_and rfl

theorem cow_user : cow e &&& pgUser = e &&& pgUser := cow_and rfl

theorem cow_huge : cow e &&& pgHuge = e &&& pgHuge := cow_and rfl

theorem frameOf_cow : frameOf (cow e) = frameOf e := by
  rw [← frameOf_pageMask, cow_and rfl, frameOf_pageMask]

theorem next_cow : next (cow e) = next e := by
  unfold next
  rw [cow_present, cow_huge, frameOf_cow]

theorem cow_cow : cow (cow e) = cow e := by
  have idem : (e &&& ~~~pgWrite) &&& ~~~pgWrite = e &&& ~~~pgWrite := by rw [UInt64.and_assoc, UInt64.and_self]
  by_cases user : e &&& pgPresent ≠ 0 ∧ e &&& pgUser ≠ 0
  · have once : cow e = e &&& ~~~pgWrite := if_pos user
    have twice : cow (cow e) = cow e &&& ~~~pgWrite := if_pos (by rw [cow_present, cow_user]; exact user)
    rw [twice, once, idem]
  · have once : cow e = e := if_neg user
    rw [once, once]

theorem cowCopy_cow : cowCopy (cow e) = cowCopy e := by
  unfold cowCopy
  rw [cow_present, cow_cow]

/-- The translation of an address after the copy: a 4 KB page of the user is read-only. -/
def cowPage (t : Translation) : Translation :=
  if t.level = 0 ∧ t.user then { t with leaf := t.leaf &&& ~~~pgWrite, write := false } else t

theorem leafAt_cow (e virt : UInt64) (present : e &&& pgPresent ≠ 0) : leafAt 0 (cow e) virt = cowPage (leafAt 0 e virt) := by
  have phys : (cow e).toNat % 2 ^ 52 / pageSize 0 = e.toNat % 2 ^ 52 / pageSize 0 := by
    have same : tableOf (cow e) = tableOf e := by rw [tableOf_eq, tableOf_eq, frameOf_cow]
    exact same
  by_cases user : e &&& pgUser = 0
  · have same : cow e = e := if_neg fun both => both.2 user
    rw [same]
    simp [cowPage, leafAt, user]
  · have marked : cow e = e &&& ~~~pgWrite := if_pos ⟨present, user⟩
    have nx : e &&& ~~~pgWrite &&& pgNx = e &&& pgNx := noWrite_and rfl
    have user' : e &&& ~~~pgWrite &&& pgUser = e &&& pgUser := noWrite_and rfl
    have write : e &&& ~~~pgWrite &&& pgWrite = 0 := by rw [UInt64.and_assoc]; exact UInt64.and_zero
    rw [marked] at phys ⊢
    unfold leafAt
    rw [phys]
    simp [cowPage, user, user', nx, write]

end SwiftBSD.Proof.Mm
