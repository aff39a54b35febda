import SwiftBSD.Proof.Mm.Split

namespace SwiftBSD.Proof.Mm
open Lib SwiftBSD.Mm

variable {m : Machine} {mem : Mem} {b f g i : Nat} {q : List Nat}

/-- The words of three tables: `page_pml4` in frame `b`, `page_pdpt` and `page_pd` in the next two. -/
def bootWord (b f i : Nat) : UInt64 :=
  if f = b then if i = 0 then newEntry true (b + 1) else 0
  else if f = b + 1 then if i = 0 then newEntry true (b + 2) else 0
  else if f = b + 2 then if i < 64 then 0x83 + 0x200000 * .ofNat i else 0
  else 0

structure BootTables (m : Machine) (b : Nat) : Prop where
  words : ∀ f i, b ≤ f → f < b + 3 → m.mem f i = bootWord b f i
  taken : ∀ f, b ≤ f → f < b + 3 → m.bitmap f = true
  positive : 0 < b
  bound : b + 2 ≤ maxPages

theorem bootWord_root (b i : Nat) : bootWord b b i = if i = 0 then newEntry true (b + 1) else 0 := by
  simp [bootWord]

theorem bootWord_pdpt (b i : Nat) : bootWord b (b + 1) i = if i = 0 then newEntry true (b + 2) else 0 := by
  simp [bootWord]

theorem bootWord_pd (b i : Nat) : bootWord b (b + 2) i = if i < 64 then 0x83 + 0x200000 * .ofNat i else 0 := by
  simp [bootWord]

theorem toNat_bootPage (small : i < 64) : (0x83 + 0x200000 * UInt64.ofNat i).toNat = 0x83 + 0x200000 * i := by
  have shift : (UInt64.ofNat i).toNat = i := UInt64.toNat_ofNat_of_lt' (by change i < 2 ^ 64; omega)
  rw [UInt64.toNat_add, UInt64.toNat_mul, shift]
  change (0x83 + 0x200000 * i % 2 ^ 64) % 2 ^ 64 = _
  omega

section Boot
variable (boot : BootTables m b)
include boot

theorem BootTables.root (i : Nat) : m.mem b i = if i = 0 then newEntry true (b + 1) else 0 := by
  rw [boot.words b i (Nat.le_refl _) (by omega), bootWord_root]

theorem BootTables.pdpt (i : Nat) : m.mem (b + 1) i = if i = 0 then newEntry true (b + 2) else 0 := by
  rw [boot.words (b + 1) i (by omega) (by omega), bootWord_pdpt]

theorem BootTables.pd (i : Nat) : m.mem (b + 2) i = if i < 64 then 0x83 + 0x200000 * .ofNat i else 0 := by
  rw [boot.words (b + 2) i (by omega) (by omega), bootWord_pd]

theorem BootTables.pd_next (i : Nat) : next (m.mem (b + 2) i) = none := by
  rw [boot.pd]
  split
  · next small =>
      have value := toNat_bootPage small
      unfold next
      rw [if_neg (by rw [and_pgPresent]; omega), if_pos (by rw [Ne, and_pgHuge]; omega)]
  · rfl

theorem BootTables.tableAt_cases (at_ : tableAt next m.mem b q = some f) :
    q = [] ∧ f = b ∨ q = [0] ∧ f = b + 1 ∨ q = [0, 0] ∧ f = b + 2 := by
  have bound := boot.bound
  cases q with
  | nil => exact .inl ⟨rfl, (Option.some.inj at_).symm⟩
  | cons i q =>
      right
      obtain ⟨g, leads, at_⟩ := tableAt_cons_some at_
      rw [boot.root] at leads
      split at leads
      case isFalse => cases leads
      next zero =>
      subst zero
      rw [next_newEntry (by omega)] at leads
      obtain rfl := Option.some.inj leads
      cases q with
      | nil => exact .inl ⟨rfl, (Option.some.inj at_).symm⟩
      | cons i q =>
          right
          obtain ⟨g, leads, at_⟩ := tableAt_cons_some at_
          rw [boot.pdpt] at leads
          split at leads
          case isFalse => cases leads
          next zero =>
          subst zero
          rw [next_newEntry (by omega)] at leads
          obtain rfl := Option.some.inj leads
          cases q with
          | nil => exact ⟨rfl, (Option.some.inj at_).symm⟩
          | cons i q =>
              obtain ⟨g, leads, -⟩ := tableAt_cons_some at_
              rw [boot.pd_next] at leads
              cases leads

theorem BootTables.fullTables : FullTables m (addrOf b) := by
  have bound := boot.bound
  have positive := boot.positive
  have frame : frameOf (addrOf b) = b := frameOf_addrOf (by omega)
  have value : (addrOf b).toNat = 4096 * b := toNat_addrOf (by omega)
  exact {
    aligned := by omega
    bound := by
      rw [value]
      unfold maxPages at bound
      omega
    tree := by
      rw [frame]
      refine ⟨fun p q f _ _ at_ at' => ?_⟩
      rcases boot.tableAt_cases at_ with ⟨rfl, rfl⟩ | ⟨rfl, rfl⟩ | ⟨rfl, rfl⟩ <;>
        rcases boot.tableAt_cases at' with ⟨rfl, same⟩ | ⟨rfl, same⟩ | ⟨rfl, same⟩ <;> first | rfl | omega
    entries := by
      rw [frame]
      intro q f i g _ at_ leads
      rcases boot.tableAt_cases at_ with ⟨rfl, rfl⟩ | ⟨rfl, rfl⟩ | ⟨rfl, rfl⟩
      · rw [boot.root] at leads ⊢
        split at leads
        · next zero =>
            rw [if_pos zero, zero]
            exact tableEntry_newEntry (by omega)
        · cases leads
      · rw [boot.pdpt] at leads ⊢
        split at leads
        · next zero =>
            rw [if_pos zero, zero]
            exact tableEntry_newEntry (by omega)
        · cases leads
      · rw [boot.pd_next] at leads
        cases leads
    small := by
      rw [frame]
      intro q f i _ short at_
      have entry (g : Nat) (small : g ≤ maxPages) : newEntry true g &&& pgHuge = 0 := by
        obtain ⟨-, notHuge, -⟩ := next_some (next_newEntry small)
        exact notHuge
      rcases boot.tableAt_cases at_ with ⟨rfl, rfl⟩ | ⟨rfl, rfl⟩ | ⟨rfl, rfl⟩
      · rw [boot.root]
        split
        · exact entry _ (by omega)
        · rfl
      · rw [boot.pdpt]
        split
        · exact entry _ (by omega)
        · rfl
      · exact absurd short (by decide)
    taken := by
      rw [frame]
      intro q f _ at_
      have inside : b ≤ f ∧ f < b + 3 := by
        rcases boot.tableAt_cases at_ with ⟨-, rfl⟩ | ⟨-, rfl⟩ | ⟨-, rfl⟩ <;> omega
      exact ⟨boot.taken f inside.1 inside.2, by omega⟩ }

end Boot

end SwiftBSD.Proof.Mm
