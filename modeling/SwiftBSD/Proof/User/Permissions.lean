import SwiftBSD.Proof.Mm.MapAny
import SwiftBSD.Proof.User.Placement

namespace SwiftBSD.Proof.User
open Lib SwiftBSD.Mm SwiftBSD.Sched SwiftBSD.User SwiftBSD.Proof.Mm SwiftBSD.Proof.Sched

variable {σ : Type} [Fs.BlockStore σ] {s t : Machine} {x y : Kernel σ} {image : UInt64 → UInt8} {p : Phdr} {cr3 flags v v' entry : UInt64} {g i j q : Nat}
  {k : List Nat × Nat} {map : PageMap} {tr : Translation}

def MayWrite (p : Phdr) : Prop := p.pFlags &&& 2 ≠ 0

def MayRun (p : Phdr) : Prop := p.pFlags &&& 1 ≠ 0

def Executable (t : Machine) (v : UInt64) : Prop :=
  canonical v = true ∧ ∃ tr, translate t.mem t.cr3 v = some tr ∧ tr.user = true ∧ tr.noExec = false

def InSegment (image : UInt64 → UInt8) (q : Nat) : Prop := ∃ i, IsLoad image i ∧ PageOf (phdr image i) q

/-- The pages of the segments are mapped as their headers say, in the half of the user, and nothing else can be executed. -/
structure Permitted (image : UInt64 → UInt8) (t : Machine) : Prop where
  pages : ∀ i q, IsLoad image i → PageOf (phdr image i) q → 4096 * q < 2 ^ 47 ∧ ∃ tr, translate t.mem t.cr3 (.ofNat (4096 * q)) = some tr ∧
    tr.user = true ∧ (tr.write = true ↔ MayWrite (phdr image i)) ∧ (tr.noExec = true ↔ ¬MayRun (phdr image i))
  only : ∀ v, Executable t v → ∃ i, IsLoad image i ∧ MayRun (phdr image i) ∧ PageOf (phdr image i) (v.toNat / 4096)

/-- Every segment can be executed, except in the pages of the stack, where it has to be data; and what could be executed before is
mapped again. -/
structure AllRun (image : UInt64 → UInt8) (s : Machine) : Prop where
  low : ∀ i, IsLoad image i → LowSegment (phdr image i)
  rights : ∀ i q, IsLoad image i → PageOf (phdr image i) q →
    (UserPage q → MayWrite (phdr image i) ∧ ¬MayRun (phdr image i)) ∧ (¬UserPage q → MayRun (phdr image i))
  before : ∀ v, Executable s v → InSegment image (v.toNat / 4096) ∨ UserPage (v.toNat / 4096)

def Apart (image : UInt64 → UInt8) : Prop :=
  ∀ i j q, IsLoad image i → IsLoad image j → i ≠ j → PageOf (phdr image i) q → ¬PageOf (phdr image j) q

theorem segmentFlags_bits (p : Phdr) : segmentFlags p &&& pgUser ≠ 0 ∧ (segmentFlags p &&& pgWrite ≠ 0 ↔ MayWrite p) ∧
    segmentFlags p &&& pgNx = 0 := by
  unfold segmentFlags MayWrite
  split
  · next write => exact ⟨by decide, iff_of_true (by decide) write, by decide⟩
  · next read => exact ⟨by decide, iff_of_false (by decide) read, by decide⟩

theorem bne_zero {e : UInt64} : (e != 0) = true ↔ e ≠ 0 := bne_iff_ne

theorem Loaded.rights (loaded : Loaded cr3 s t map) (at_ : map (pageKey v) = some (g, flags)) (low : v.toNat < 2 ^ 47) :
    ∃ tr, translate t.mem cr3 v = some tr ∧ (tr.user = true ↔ flags &&& pgUser ≠ 0) ∧ (tr.write = true ↔ flags &&& pgWrite ≠ 0) ∧
      (tr.noExec = true ↔ flags &&& pgNx ≠ 0) := by
  obtain ⟨tr, here, access⟩ := Option.map_eq_some_iff.mp (loaded.here v g flags at_)
  have bound := (loaded.frames _ _ _ at_).1
  have address : (addrOf g).toNat = 4096 * g := by
    unfold maxPages at bound
    exact UInt64.toNat_ofNat_of_lt' (by change 4096 * g < 2 ^ 64; omega)
  obtain ⟨-, write, user, noExec⟩ := Access.mk.inj access
  change tr.user = (decide (index 3 v < 256) && (pteOf (addrOf g) flags &&& pgUser != 0)) at user
  rw [decide_eq_true (index_three_low low), Bool.true_and] at user
  change tr.write = (pteOf (addrOf g) flags &&& pgWrite != 0) at write
  change tr.noExec = (pteOf (addrOf g) flags &&& pgNx != 0) at noExec
  have nx : pteOf (addrOf g) flags &&& pgNx = 0 ↔ flags &&& pgNx = 0 := by
    unfold maxPages at bound
    exact pteOf_nx (by omega) (by omega)
  refine ⟨tr, here, ?_, ?_, ?_⟩
  · rw [user, bne_zero, ne_eq, pteOf_user]
  · rw [write, bne_zero, ne_eq, pteOf_write]
  · rw [noExec, bne_zero, ne_eq, nx]

theorem low_of_key (can : canonical v = true) (low : v'.toNat < 2 ^ 47) (same : pageKey v = pageKey v') : v.toNat < 2 ^ 47 := by
  have route := (pageKey_eq.mp same).1
  simp only [routeFrom, List.cons.injEq] at route
  have half := index_three_low low
  rcases canonical_iff.mp can with user | kernel
  · exact user
  · rw [← route.1, index_three] at half
    have := v.toNat_lt
    omega

theorem lastOf_apart (apart : Apart image) (low : ∀ i, IsLoad image i → LowSegment (phdr image i)) (load : IsLoad image i)
    (page : KeyOf (phdr image i) k) : LastOf image (ePhnum image) i k := by
  refine ⟨load.1, load, page, fun l later _ load' page' => ?_⟩
  obtain ⟨q, here, rfl⟩ := page
  obtain ⟨q', there, same⟩ := page'
  have first := toNat_page (low i load q here)
  have second := toNat_page (low l load' q' there)
  rw [pageKey_low (by rw [second]; exact low l load' q' there) (by rw [first]; exact low i load q here), first, second,
    Nat.mul_div_cancel_left _ (by decide), Nat.mul_div_cancel_left _ (by decide)] at same
  subst same
  exact apart i l q load load' (by omega) here there

section Program
variable (program : ProgramLoaded s t map image) (low : ∀ i, IsLoad image i → LowSegment (phdr image i))
include program

theorem page_rights (apart : Apart image) (low : ∀ i, IsLoad image i → LowSegment (phdr image i)) (load : IsLoad image i)
    (page : PageOf (phdr image i) q) : (∃ tr, translate t.mem t.cr3 (.ofNat (4096 * q)) = some tr ∧ tr.user = true ∧
      (tr.write = true ↔ MayWrite (phdr image i)) ∧ (tr.noExec = true ↔ ¬MayRun (phdr image i))) ↔
    (UserPage q → MayWrite (phdr image i) ∧ ¬MayRun (phdr image i)) ∧ (¬UserPage q → MayRun (phdr image i)) := by
  have number := toNat_page (low i load q page)
  have user : (UInt64.ofNat (4096 * q)).toNat < 2 ^ 47 := by
    rw [number]
    exact low i load q page
  have stack := userKey_iff user
  rw [number, Nat.mul_div_cancel_left _ (by decide)] at stack
  rw [program.loaded.register]
  by_cases special : UserPage q
  · obtain ⟨g, at_⟩ := program.user _ (stack.mpr special)
    obtain ⟨tr, here, isUser, write, noExec⟩ := program.loaded.rights at_ user
    have flags : tr.user = true ∧ tr.write = true ∧ tr.noExec = true := ⟨isUser.mpr (by decide), write.mpr (by decide), noExec.mpr (by decide)⟩
    constructor
    · rintro ⟨tr', here', -, write', noExec'⟩
      obtain rfl := Option.some.inj (here.symm.trans here')
      exact ⟨fun _ => ⟨write'.mp flags.2.1, noExec'.mp flags.2.2⟩, fun other => (other special).elim⟩
    · rintro ⟨rights, -⟩
      exact ⟨tr, here, flags.1, iff_of_true flags.2.1 (rights special).1, iff_of_true flags.2.2 (rights special).2⟩
  · obtain ⟨g, at_⟩ := program.flags i _ (stack.not.mpr special) (lastOf_apart apart low load ⟨q, page, rfl⟩)
    obtain ⟨tr, here, isUser, write, noExec⟩ := program.loaded.rights at_ user
    obtain ⟨userBit, writeBit, nxBit⟩ := segmentFlags_bits (phdr image i)
    have runs : ¬tr.noExec = true := fun refused => noExec.mp refused nxBit
    constructor
    · rintro ⟨tr', here', -, -, noExec'⟩
      obtain rfl := Option.some.inj (here.symm.trans here')
      exact ⟨fun impossible => (special impossible).elim, fun _ => not_not.mp (noExec'.not.mp runs)⟩
    · rintro ⟨-, rights⟩
      exact ⟨tr, here, isUser.mpr userBit, write.trans writeBit, iff_of_false runs (not_not.mpr (rights special))⟩

include low

theorem unmapped_page (can : canonical v = true) (segments : ¬InSegment image (v.toNat / 4096)) (stack : ¬UserPage (v.toNat / 4096)) :
    map (pageKey v) = none := by
  refine program.absent _ ?_ ?_
  · intro special
    obtain ⟨page, member, same⟩ := special
    have below := (userPages_low page member).2
    exact stack ((userKey_iff (low_of_key can (by omega) same)).mp ⟨page, member, same⟩)
  · rintro j load ⟨q, page, same⟩
    have number := toNat_page (low j load q page)
    have user := low_of_key can (by rw [number]; exact low j load q page) same
    exact segments ⟨j, load, (keyOf_iff (low j load) user).mp ⟨q, page, same⟩⟩

theorem executable_iff (segments : ¬InSegment image (v.toNat / 4096)) (stack : ¬UserPage (v.toNat / 4096)) : Executable t v ↔ Executable s v := by
  unfold Executable
  refine and_congr_right fun can => ?_
  have same := program.loaded.others v (unmapped_page program low can segments stack)
  rw [program.loaded.register]
  constructor
  · rintro ⟨tr, here, user, runs⟩
    rw [here, Option.map_some] at same
    obtain ⟨tr', here', access⟩ := Option.map_eq_some_iff.mp same.symm
    exact ⟨tr', here', (congrArg Access.user access).trans user, (congrArg Access.noExec access).trans runs⟩
  · rintro ⟨tr, here, user, runs⟩
    rw [here, Option.map_some] at same
    obtain ⟨tr', here', access⟩ := Option.map_eq_some_iff.mp same
    exact ⟨tr', here', (congrArg Access.user access).trans user, (congrArg Access.noExec access).trans runs⟩

omit low in
theorem not_executable_stack (stack : UserPage (v.toNat / 4096)) : ¬Executable t v := by
  rintro ⟨-, tr, here, -, runs⟩
  have user : v.toNat < 2 ^ 47 := by
    obtain ⟨page, member, same⟩ := stack
    have below := (userPages_low page member).2
    omega
  obtain ⟨g, at_⟩ := program.user _ ((userKey_iff user).mpr stack)
  obtain ⟨tr', here', -, -, noExec⟩ := program.loaded.rights at_ user
  rw [program.loaded.register, here'] at here
  obtain rfl := Option.some.inj here
  rw [noExec.mpr (by decide)] at runs
  cases runs

theorem ProgramLoaded.permitted_iff (apart : Apart image) : Permitted image t ↔ AllRun image s := by
  constructor
  · intro permitted
    refine ⟨low, fun i q load page => (page_rights program apart low load page).mp (permitted.pages i q load page).2, fun v runs => ?_⟩
    by_contra neither
    rw [not_or] at neither
    obtain ⟨i, load, -, page⟩ := permitted.only v ((executable_iff program low neither.1 neither.2).mpr runs)
    exact neither.1 ⟨i, load, page⟩
  · intro all
    refine ⟨fun i q load page => ⟨low i load q page, (page_rights program apart low load page).mpr (all.rights i q load page)⟩, fun v runs => ?_⟩
    have stack : ¬UserPage (v.toNat / 4096) := fun stack => not_executable_stack program stack runs
    by_cases segments : InSegment image (v.toNat / 4096)
    · obtain ⟨i, load, page⟩ := segments
      exact ⟨i, load, (all.rights i _ load page).2 stack, page⟩
    · rcases all.before v ((executable_iff program low segments stack).mp runs) with inside | special
      · exact (segments inside).elim
      · exact (stack special).elim

end Program

/-- The pages of a program have the rights its segments ask for if and only if every segment can be executed. -/
theorem load_permissions_iff (tables : FullTables x.machine x.machine.cr3) (reserved : x.machine.bitmap 0 = true) (apart : Apart image)
    (run : (elf64Load image).run x = some (some entry, y)) : Permitted image y.machine ↔ AllRun image x.machine := by
  have main (low : ∀ i, IsLoad image i → LowSegment (phdr image i)) : Permitted image y.machine ↔ AllRun image x.machine := by
    obtain ⟨map, program⟩ := elf64Load_run tables reserved low run
    exact program.permitted_iff low apart
  constructor
  · intro permitted
    exact (main fun i load q page => (permitted.pages i q load page).1).mp permitted
  · intro all
    exact (main all.low).mpr all

def constants : UInt64 → UInt8 := imageOf (programFile [(4, 0, 0x8000000)]) fun _ => 0

theorem constants_phdr : phdr constants 0 = ⟨1, 4, 0, 0x8000000, 1, 1⟩ := by
  change Phdr.mk _ _ _ _ _ _ = _
  rw [Phdr.mk.injEq]
  decide +kernel

theorem constants_phnum : ePhnum constants = 1 := by decide +kernel

theorem isLoad_constants : IsLoad constants i ↔ i = 0 := by
  unfold IsLoad
  rw [constants_phnum]
  constructor
  · rintro ⟨small, -⟩
    omega
  · rintro rfl
    exact ⟨by decide, by rw [constants_phdr]⟩

theorem constants_apart : Apart constants := by
  intro i j q load load' differs
  rw [isLoad_constants.mp load, isLoad_constants.mp load'] at differs
  exact (differs rfl).elim

theorem constants_low (i : Nat) (load : IsLoad constants i) : LowSegment (phdr constants i) := by
  have address : (0x8000000 : UInt64).toNat = 0x8000000 := rfl
  have one : (1 : UInt64).toNat = 1 := rfl
  rw [isLoad_constants.mp load, constants_phdr]
  rintro q ⟨-, upper⟩
  dsimp only at upper
  omega

theorem constants_load : ∃ y, (elf64Load constants).run bootProcess = some (some (eEntry constants), y) := by
  refine elf64Load_succeeds bootProcess_tables rfl (by decide +kernel) constants_low ?_
  have pages : pagesFrom constants 0 = 1 := by
    unfold pagesFrom
    rw [constants_phnum, Finset.sum_Ico_succ_top (by decide), Finset.Ico_self, Finset.sum_empty, constants_phdr]
    rfl
  have frames := bootProcess_frames
  omega

theorem load_permissions_iff_constants : ∃ y, (elf64Load constants).run bootProcess = some (some (eEntry constants), y) ∧
    (Permitted constants y.machine ↔ AllRun constants bootProcess.machine) := by
  obtain ⟨y, run⟩ := constants_load
  exact ⟨y, run, load_permissions_iff bootProcess_tables rfl constants_apart run⟩

theorem constants_executable : ¬ ∀ (x y : Kernel Fs.Disk) (image : UInt64 → UInt8) (entry : UInt64), FullTables x.machine x.machine.cr3 →
    x.machine.bitmap 0 = true → Apart image → (elf64Load image).run x = some (some entry, y) → Permitted image y.machine := by
  intro all
  obtain ⟨y, run⟩ := constants_load
  have permitted := all bootProcess y constants _ bootProcess_tables rfl constants_apart run
  obtain ⟨map, program⟩ := elf64Load_run bootProcess_tables rfl constants_low run
  have every := (program.permitted_iff constants_low constants_apart).mp permitted
  have load := isLoad_constants.mpr rfl
  have page : PageOf (phdr constants 0) 0x8000 := by
    rw [constants_phdr]
    exact ⟨by decide, by decide⟩
  have runs := (every.rights 0 0x8000 load page).2 (by unfold UserPage; decide)
  rw [constants_phdr] at runs
  exact runs rfl

end SwiftBSD.Proof.User
