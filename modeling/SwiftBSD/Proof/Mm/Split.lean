import SwiftBSD.Proof.Mm.FullTables

namespace SwiftBSD.Proof.Mm
open Lib SwiftBSD.Mm

variable {g j : Nat} {user : Bool} {e virt : UInt64}

def newEntry (user : Bool) (g : Nat) : UInt64 := addrOf g ||| tableFlags user

theorem toNat_newEntry (bound : g ≤ maxPages) : (newEntry user g).toNat = 4096 * g + if user then 7 else 3 := by
  have aligned : 4096 * g = 2 ^ 12 * g := rfl
  have value : (tableFlags user).toNat = if user then 7 else 3 := by cases user <;> rfl
  unfold newEntry
  rw [UInt64.toNat_or, toNat_addrOf bound, aligned, value]
  refine (Nat.two_pow_add_eq_or_of_lt ?_ g).symm
  cases user <;> decide

theorem next_newEntry (bound : g ≤ maxPages) : next (newEntry user g) = some g := by
  have value : (newEntry user g).toNat = _ := toNat_newEntry bound
  unfold next
  rw [if_neg, if_neg]
  · unfold frameOf
    rw [value]
    congr 1
    cases user <;> simp <;> omega
  · rw [not_not, and_pgHuge]
    cases user <;> simp at value <;> omega
  · rw [and_pgPresent]
    cases user <;> simp at value <;> omega

theorem tableEntry_newEntry (bound : g ≤ maxPages) : TableEntry user (newEntry user g) := by
  have value : (newEntry user g).toNat = _ := toNat_newEntry bound
  refine ⟨?_, ?_, ?_⟩
  · rw [Ne, and_pgWrite]
    cases user <;> simp at value <;> omega
  · have rights := and_pgUser (e := newEntry user g)
    cases user <;> simp at value <;> simp [rights] <;> omega
  · unfold maxPages at bound
    cases user <;> simp at value <;> omega

def splitFlags (e : UInt64) : UInt64 := e &&& 0x1FF &&& ~~~pgHuge ||| (if e &&& pgNx ≠ 0 then pgNx else 0)

def splitEntry (e : UInt64) (j : Nat) : UInt64 := (e &&& 0xFFFFFFFFFFE00000) + .ofNat j * 0x1000 ||| splitFlags e

theorem toNat_base : (e &&& 0xFFFFFFFFFFE00000).toNat = 2 ^ 21 * (e.toNat / 2 ^ 21) := by
  have mask : (0xFFFFFFFFFFE00000 : UInt64).toNat = (2 ^ 43 - 1) <<< 21 := rfl
  rw [UInt64.toNat_and, mask]
  apply Nat.eq_of_testBit_eq
  intro i
  have low : 2 ^ 21 * (e.toNat / 2 ^ 21) = (e.toNat >>> 21) <<< 21 := by
    rw [Nat.shiftRight_eq_div_pow, Nat.shiftLeft_eq, Nat.mul_comm]
  rw [low, Nat.testBit_and, Nat.testBit_shiftLeft, Nat.testBit_shiftLeft, Nat.testBit_two_pow_sub_one,
    Nat.testBit_shiftRight]
  by_cases small : 21 ≤ i
  · by_cases large : i < 64
    · have : i - 21 < 43 := by omega
      simp [small, this, Nat.add_sub_of_le small]
    · have : e.toNat.testBit i = false :=
        Nat.testBit_lt_two_pow (Nat.lt_of_lt_of_le e.toNat_lt (Nat.pow_le_pow_right (by omega) (by omega)))
      simp [this, small, Nat.add_sub_of_le small]
  · simp [small]

theorem or_pgNx (set : 2 ^ 63 ≤ e.toNat) : e ||| pgNx = e := by
  apply UInt64.toNat_inj.mp
  have bound := e.toNat_lt
  have split : e.toNat = 2 ^ 63 * 1 + (e.toNat - 2 ^ 63) := by omega
  have value : pgNx.toNat = 2 ^ 63 := rfl
  have bits := Nat.two_pow_add_eq_or_of_lt (show e.toNat - 2 ^ 63 < 2 ^ 63 by omega) 1
  rw [UInt64.toNat_or, value, split, bits, Nat.mul_one, Nat.or_right_comm, Nat.or_self]

theorem low_lt : (e &&& 0x1FF &&& ~~~pgHuge).toNat < 512 := by
  rw [UInt64.toNat_and, UInt64.toNat_and]
  exact (Nat.and_le_left.trans Nat.and_le_right).trans_lt (by decide)

theorem toNat_splitEntry (small : j < 512) :
    (splitEntry e j).toNat = 2 ^ 21 * (e.toNat / 2 ^ 21) + 4096 * j + (e &&& 0x1FF &&& ~~~pgHuge).toNat := by
  have bound := e.toNat_lt
  have low : (e &&& 0x1FF &&& ~~~pgHuge).toNat < 2 ^ 12 := low_lt.trans (by decide)
  have step : (UInt64.ofNat j * 0x1000).toNat = 4096 * j := by
    rw [UInt64.toNat_mul, UInt64.toNat_ofNat']
    change j % 2 ^ 64 * 4096 % 2 ^ 64 = 4096 * j
    omega
  have base : ((e &&& 0xFFFFFFFFFFE00000) + UInt64.ofNat j * 0x1000).toNat = 2 ^ 12 * (512 * (e.toNat / 2 ^ 21) + j) := by
    rw [UInt64.toNat_add, toNat_base, step]
    omega
  have sum : ((e &&& 0xFFFFFFFFFFE00000) + UInt64.ofNat j * 0x1000 ||| (e &&& 0x1FF &&& ~~~pgHuge)).toNat =
      2 ^ 21 * (e.toNat / 2 ^ 21) + 4096 * j + (e &&& 0x1FF &&& ~~~pgHuge).toNat := by
    rw [UInt64.toNat_or, base, ← Nat.two_pow_add_eq_or_of_lt low]
    omega
  unfold splitEntry splitFlags
  split
  · next nx =>
      rw [Ne, and_pgNx] at nx
      rw [← UInt64.or_assoc, or_pgNx, sum]
      rw [sum]
      omega
  · rw [UInt64.or_zero, sum]

theorem low_mod : (e &&& 0x1FF &&& ~~~pgHuge).toNat % 8 = e.toNat % 8 := by
  have value : (e &&& 0x1FF &&& ~~~pgHuge).toNat = e.toNat &&& 511 &&& 18446744073709551487 := by
    rw [UInt64.toNat_and, UInt64.toNat_and]
    rfl
  have seven (x : Nat) : x % 2 ^ 3 &&& 7 = x % 2 ^ 3 := by
    rw [Nat.and_two_pow_sub_one_eq_mod _ 3]
    omega
  rw [value, show 8 = 2 ^ 3 from rfl, Nat.and_mod_two_pow, Nat.and_mod_two_pow]
  change e.toNat % 2 ^ 3 &&& 7 &&& 7 = e.toNat % 2 ^ 3
  rw [seven, seven]

/-- Where an address leads, and what may be done there. -/
structure Access where
  phys : Nat
  write : Bool
  user : Bool
  noExec : Bool
deriving DecidableEq

def Translation.access (t : Translation) : Access := ⟨t.phys, t.write, t.user, t.noExec⟩

section Pieces
variable (small : j < 512)
include small

theorem splitEntry_present : splitEntry e j &&& pgPresent = 0 ↔ e &&& pgPresent = 0 := by
  have value := toNat_splitEntry (e := e) small
  have low := @low_mod e
  rw [and_pgPresent, and_pgPresent]
  omega

theorem splitEntry_write : splitEntry e j &&& pgWrite = 0 ↔ e &&& pgWrite = 0 := by
  have value := toNat_splitEntry (e := e) small
  have low := @low_mod e
  rw [and_pgWrite, and_pgWrite]
  omega

theorem splitEntry_user : splitEntry e j &&& pgUser = 0 ↔ e &&& pgUser = 0 := by
  have value := toNat_splitEntry (e := e) small
  have low := @low_mod e
  rw [and_pgUser, and_pgUser]
  omega

theorem splitEntry_nx : splitEntry e j &&& pgNx = 0 ↔ e &&& pgNx = 0 := by
  have value := toNat_splitEntry (e := e) small
  have low := @low_lt e
  rw [and_pgNx, and_pgNx]
  omega

end Pieces

theorem access_split (e virt : UInt64) :
    Translation.access (leafAt 0 (splitEntry e (index 0 virt)) virt) = Translation.access (leafAt 1 e virt) := by
  have small := index_lt 0 virt
  have value := toNat_splitEntry (e := e) small
  have low := @low_lt e
  have piece := index_zero virt
  have write := splitEntry_write (e := e) small
  have user := splitEntry_user (e := e) small
  have nx := splitEntry_nx (e := e) small
  have phys : (splitEntry e (index 0 virt)).toNat % 2 ^ 52 / 4096 * 4096 + virt.toNat % 4096 =
      e.toNat % 2 ^ 52 / 2097152 * 2097152 + virt.toNat % 2097152 := by
    omega
  unfold Translation.access leafAt
  simp only [Access.mk.injEq]
  refine ⟨phys, ?_, ?_, ?_⟩
  · exact Bool.eq_iff_iff.mpr (by simpa using not_congr write)
  · exact Bool.eq_iff_iff.mpr (by simpa using not_congr user)
  · exact Bool.eq_iff_iff.mpr (by simpa using not_congr nx)

end SwiftBSD.Proof.Mm
