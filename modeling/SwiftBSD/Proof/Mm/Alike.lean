import SwiftBSD.Proof.Mm.Given

namespace SwiftBSD.Proof.Mm
open Lib SwiftBSD.Mm

variable {A B : Nat → Prop} {s s' t t' : Machine} {f g h i j n : Nat} {cr3 virt a phys flags parent w : UInt64} {tr : Translation}

structure Alike (A : Nat → Prop) (s s' : Machine) : Prop where
  bitmap : s'.bitmap = s.bitmap
  last : s'.lastPhysPage = s.lastPhysPage
  register : s'.cr3 = s.cr3
  mem : ∀ f, A f → ∀ i, i < 512 → s'.mem f i = s.mem f i

theorem Alike.mono (alike : Alike A s s') (less : ∀ f, B f → A f) : Alike B s s' :=
  ⟨alike.bitmap, alike.last, alike.register, fun f known => alike.mem f (less f known)⟩

theorem Alike.translateFrom (alike : Alike A s s') {d : Nat} (known : ∀ q h, Path 512 512 d q → tableAt hwNext s.mem f q = some h → A h) :
    translateFrom s'.mem virt d f = translateFrom s.mem virt d f := by
  induction d generalizing f with
  | zero =>
      rw [translateFrom_zero, translateFrom_zero, alike.mem f (known [] f .nil rfl) _ (index_lt 0 virt)]
  | succ d ih =>
      rw [translateFrom_succ, translateFrom_succ, alike.mem f (known [] f .nil rfl) _ (index_lt (d+1) virt)]
      split
      · rfl
      next present =>
      split
      · rfl
      next small =>
      have leads : hwNext (s.mem f (index (d+1) virt)) = some (tableOf (s.mem f (index (d+1) virt))) := by
        unfold hwNext
        rw [if_neg present, if_neg small]
      rw [ih fun q h path at_ => known (index (d+1) virt :: q) h (.cons (index_lt _ virt) path) (by rw [tableAt_cons leads, at_])]

theorem Alike.translate (alike : Alike A s s') (tables : FullTables s cr3) (known : ∀ f, IsTable s.mem cr3 f → A f) (virt : UInt64) :
    translate s'.mem cr3 virt = translate s.mem cr3 virt := by
  unfold SwiftBSD.Mm.translate
  rw [tables.tableOf_cr3]
  exact alike.translateFrom fun q h path at_ => known h ⟨q, path, tables.tableAt_hw path at_⟩

/-- What is known after `s` has become `t`: the frames in `A`, and those that were taken on the way. -/
def Since (A : Nat → Prop) (s t : Machine) (f : Nat) : Prop := A f ∨ s.bitmap f = false ∧ t.bitmap f = true

theorem Since.trans {u : Machine} : Since A s u f → Since (Since A s t) t u f := by
  rintro (known | ⟨free, taken⟩)
  · exact .inl (.inl known)
  · by_cases now : t.bitmap f = true
    · exact .inl (.inr ⟨free, now⟩)
    · exact .inr ⟨Bool.eq_false_iff.mpr now, taken⟩

end SwiftBSD.Proof.Mm
