import SwiftBSD.Mm.Cow
import SwiftBSD.Proof.Mm.Fork

namespace SwiftBSD.Proof.Mm
open Lib SwiftBSD.Mm

variable {n d : Nat} {m t : Machine} {mem mem' : Mem} {p pt : Nat} {cr3 virt virt' e : UInt64} {tr : Translation}

theorem toNat_index (x : UInt64) (k : Nat) (small : k < 64) :
    (x >>> UInt64.ofNat k &&& 0x1FF).toNat = x.toNat / 2 ^ k % 512 := by
  have shift : (UInt64.ofNat k).toNat % 64 = k := by
    rw [UInt64.toNat_ofNat']
    omega
  rw [UInt64.toNat_and, UInt64.toNat_shiftRight, shift, Nat.shiftRight_eq_div_pow]
  exact Nat.and_two_pow_sub_one_eq_mod _ 9

theorem index_zero (virt : UInt64) : index 0 virt = virt.toNat / 2 ^ 12 % 512 := toNat_index virt 12 (by decide)

theorem index_one (virt : UInt64) : index 1 virt = virt.toNat / 2 ^ 21 % 512 := toNat_index virt 21 (by decide)

theorem index_two (virt : UInt64) : index 2 virt = virt.toNat / 2 ^ 30 % 512 := toNat_index virt 30 (by decide)

theorem index_three (virt : UInt64) : index 3 virt = virt.toNat / 2 ^ 39 % 512 := toNat_index virt 39 (by decide)

theorem index_congr (same : virt.toNat / 4096 = virt'.toNat / 4096) (d : Nat) : index d virt = index d virt' := by
  have three : index 3 virt = index 3 virt' := by
    rw [index_three, index_three]
    omega
  match d with
  | 0 =>
      rw [index_zero, index_zero]
      omega
  | 1 =>
      rw [index_one, index_one]
      omega
  | 2 =>
      rw [index_two, index_two]
      omega
  | _ + 3 => exact three

/-- The indices below a table at depth `d`, down to a page table. -/
def routeFrom : Nat → UInt64 → List Nat
  | 0, _ => []
  | d+1, virt => index (d+1) virt :: routeFrom d virt

theorem path_routeFrom (small : index d virt < n) : Path 512 n d (routeFrom d virt) := by
  induction d generalizing n with
  | zero => exact .nil
  | succ d ih => exact .cons small (ih (index_lt d virt))

theorem length_routeFrom (d : Nat) (virt : UInt64) : (routeFrom d virt).length = d := by
  induction d with
  | zero => rfl
  | succ d ih => exact congrArg (· + 1) ih

theorem routeFrom_congr (same : virt.toNat / 4096 = virt'.toNat / 4096) (d : Nat) :
    routeFrom d virt = routeFrom d virt' := by
  induction d with
  | zero => rfl
  | succ d ih => rw [routeFrom, routeFrom, index_congr same, ih]

theorem page_eq (low : virt.toNat < 2 ^ 47) (low' : virt'.toNat < 2 ^ 47) (route : routeFrom 3 virt = routeFrom 3 virt')
    (last : index 0 virt = index 0 virt') : virt.toNat / 4096 = virt'.toNat / 4096 := by
  obtain ⟨three, two, one⟩ : index 3 virt = index 3 virt' ∧ index 2 virt = index 2 virt' ∧ index 1 virt = index 1 virt' := by
    simpa [routeFrom] using route
  rw [index_three, index_three] at three
  rw [index_two, index_two] at two
  rw [index_one, index_one] at one
  rw [index_zero, index_zero] at last
  omega

/-- The page table and the entry for an address. -/
structure Entry (mem : Mem) (cr3 virt : UInt64) (pt : Nat) (e : UInt64) : Prop where
  route : tableAt next mem (frameOf cr3) (routeFrom 3 virt) = some pt
  entry : mem pt (index 0 virt) = e
  present : e &&& pgPresent ≠ 0

theorem translateFrom_page (plains : Plains n d mem p) (small : index d virt < n) :
    (translateFrom mem virt d p = some tr ∧ tr.level = 0) ↔
    ∃ pt, tableAt next mem p (routeFrom d virt) = some pt ∧ mem pt (index 0 virt) &&& pgPresent ≠ 0 ∧
      tr = leafAt 0 (mem pt (index 0 virt)) virt := by
  induction d generalizing n p with
  | zero =>
      rw [translateFrom_zero]
      constructor
      · rintro ⟨walk, -⟩
        split at walk
        · cases walk
        · next present => exact ⟨p, rfl, present, (Option.some.inj walk).symm⟩
      · rintro ⟨pt, at_, present, rfl⟩
        obtain rfl := Option.some.inj at_
        exact ⟨if_neg present, rfl⟩
  | succ d ih =>
      cases here : next (mem p (index (d+1) virt)) with
      | none =>
          rw [translateFrom_stop here]
          constructor
          · rintro ⟨walk, level⟩
            unfold stopAt at walk
            split at walk
            · cases walk
            split at walk
            · cases walk
              cases level
            · cases walk
          · rintro ⟨pt, at_, -⟩
            rw [routeFrom, tableAt, here] at at_
            cases at_
      | some f =>
          have plain := plains [] p _ f (.cons small .nil) rfl here
          rw [translateFrom_table here plain, ih (plains.sub small here) (index_lt d virt), routeFrom, tableAt_cons here]

theorem index_three_low (low : virt.toNat < 2 ^ 47) : index 3 virt < 256 := by
  rw [index_three]
  omega

section Walk
variable (tables : LowTables m cr3) (low : virt.toNat < 2 ^ 47)
include tables low

theorem LowTables.translate_page :
    (translate m.mem cr3 virt = some tr ∧ tr.level = 0) ↔ ∃ pt e, Entry m.mem cr3 virt pt e ∧ tr = leafAt 0 e virt := by
  unfold SwiftBSD.Mm.translate
  rw [tables.tableOf_cr3, translateFrom_page tables.plain (index_three_low low)]
  constructor
  · rintro ⟨pt, at_, present, rfl⟩
    exact ⟨pt, _, ⟨at_, rfl, present⟩, rfl⟩
  · rintro ⟨pt, e, ⟨at_, rfl, present⟩, rfl⟩
    exact ⟨pt, at_, present, rfl⟩

theorem LowTables.translate_entry (entry : Entry m.mem cr3 virt pt e) : translate m.mem cr3 virt = some (leafAt 0 e virt) :=
  ((tables.translate_page low).mpr ⟨pt, e, entry, rfl⟩).1

end Walk

/-- From `m` to `t`, no table of the low half above the page tables is written. -/
structure SameTables (m t : Machine) (cr3 : UInt64) : Prop where
  grows : ∀ f, m.bitmap f = true → t.bitmap f = true
  upper : ∀ q f, Path 512 256 3 q → q.length < 3 → tableAt next m.mem (frameOf cr3) q = some f → t.mem f = m.mem f

section SameTables
variable (same : SameTables m t cr3)
include same

theorem SameTables.tableAt_eq {q : List Nat} (path : Path 512 256 3 q) :
    tableAt next t.mem (frameOf cr3) q = tableAt next m.mem (frameOf cr3) q := by
  refine tableAt_congr fun q' i rest f split at_ => ?_
  have length := path.length_le
  rw [split] at path length
  rw [same.upper q' f path.left (by simp at length; omega) at_]

theorem SameTables.lowTable {f : Nat} : LowTable t.mem cr3 f ↔ LowTable m.mem cr3 f := by
  constructor
  · rintro ⟨q, path, at_⟩
    exact ⟨q, path, by rw [← same.tableAt_eq path, at_]⟩
  · rintro ⟨q, path, at_⟩
    exact ⟨q, path, by rw [same.tableAt_eq path, at_]⟩

theorem SameTables.tables (tables : LowTables m cr3) : LowTables t cr3 where
  aligned := tables.aligned
  bound := tables.bound
  tree := by
    refine ⟨fun q q' f path path' at_ at' => ?_⟩
    rw [same.tableAt_eq path] at at_
    rw [same.tableAt_eq path'] at at'
    exact tables.tree.unique q q' f path path' at_ at'
  plain := by
    intro q f i g path at_ here
    have length := path.length_le
    rw [same.tableAt_eq path.left] at at_
    rw [same.upper q f path.left (by simp at length; omega) at_] at here ⊢
    exact tables.plain q f i g path at_ here
  taken := fun f low => same.grows f (tables.taken f (same.lowTable.mp low))

theorem SameTables.route (low : virt.toNat < 2 ^ 47) :
    tableAt next t.mem (frameOf cr3) (routeFrom 3 virt) = tableAt next m.mem (frameOf cr3) (routeFrom 3 virt) :=
  same.tableAt_eq (path_routeFrom (index_three_low low))

end SameTables

theorem SameTables.of_apart (grows : ∀ f, m.bitmap f = true → t.bitmap f = true)
    (tables : ∀ f, LowTable m.mem cr3 f → t.mem f = m.mem f) : SameTables m t cr3 :=
  ⟨grows, fun q f path _ at_ => tables f ⟨q, path, at_⟩⟩

theorem LowTables.sameTables (tables : LowTables m cr3) (low : virt.toNat < 2 ^ 47)
    (route : tableAt next m.mem (frameOf cr3) (routeFrom 3 virt) = some pt)
    (grows : ∀ f, m.bitmap f = true → t.bitmap f = true) (others : ∀ f, f ≠ pt → LowTable m.mem cr3 f → t.mem f = m.mem f) :
    SameTables m t cr3 := by
  refine ⟨grows, fun q f path short at_ => others f ?_ ⟨q, path, at_⟩⟩
  rintro rfl
  rw [tables.tree.unique q (routeFrom 3 virt) f path (path_routeFrom (index_three_low low)) at_ route,
    length_routeFrom] at short
  exact Nat.lt_irrefl 3 short

theorem Entry.keep (entry : Entry m.mem cr3 virt pt e) (same : SameTables m t cr3) (low : virt.toNat < 2 ^ 47)
    (table : t.mem pt (index 0 virt) = m.mem pt (index 0 virt)) : Entry t.mem cr3 virt pt e :=
  ⟨(same.route low).trans entry.route, table.trans entry.entry, entry.present⟩

theorem Entry.lowTable (entry : Entry mem cr3 virt pt e) (low : virt.toNat < 2 ^ 47) : LowTable mem cr3 pt :=
  ⟨routeFrom 3 virt, path_routeFrom (index_three_low low), entry.route⟩

end SwiftBSD.Proof.Mm
