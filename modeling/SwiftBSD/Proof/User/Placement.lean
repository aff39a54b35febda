import SwiftBSD.Proof.User.Frames

namespace SwiftBSD.Proof.User
open Lib SwiftBSD.Mm SwiftBSD.Sched SwiftBSD.User SwiftBSD.Proof.Mm SwiftBSD.Proof.Sched

variable {σ : Type} [Fs.BlockStore σ] {s t : Machine} {x y : Kernel σ} {image : UInt64 → UInt8} {p : Phdr} {cr3 v v' entry : UInt64} {i j q n : Nat}
  {k : List Nat × Nat} {map : PageMap} {file : List UInt8} {heap : UInt64 → UInt8}

theorem exists_lastOf (load : IsLoad image i) (small : i < n) (page : KeyOf (phdr image i) k) : ∃ l, i ≤ l ∧ LastOf image n l k := by
  induction d : n - i using Nat.strong_induction_on generalizing i with
  | _ d ih =>
      by_cases last : ∀ l, i < l → l < n → IsLoad image l → ¬KeyOf (phdr image l) k
      · exact ⟨i, Nat.le_refl i, small, load, page, last⟩
      · push Not at last
        obtain ⟨l, later, before, load', page'⟩ := last
        obtain ⟨l', more, of⟩ := ih (n - l) (by omega) load' before page' rfl
        exact ⟨l', by omega, of⟩

/-- The pages of the stack and of the arguments. -/
def UserPage (q : Nat) : Prop := ∃ page ∈ userPages, page.toNat / 4096 = q

theorem userKey_iff (user : v.toNat < 2 ^ 47) : UserKey (pageKey v) ↔ UserPage (v.toNat / 4096) := by
  unfold UserKey UserPage
  refine exists_congr fun page => and_congr_right fun member => ?_
  have low := (userPages_low page member).2
  rw [pageKey_low (by omega) user]
  exact eq_comm

/-- The byte `j` of a segment that is loaded from a file. -/
def fileByte (file : List UInt8) (p : Phdr) (j : Nat) : UInt8 :=
  if j < min p.pFilesz.toNat p.pMemsz.toNat then file.getD (p.pOffset.toNat + j) 0 else 0

/-- The segments lie in the half of the user, in the file, and apart from each other. -/
structure WellFormed (file : List UInt8) (image : UInt64 → UInt8) : Prop where
  size : file.length < 2 ^ 64
  area : ∀ i, IsLoad image i → (phdr image i).pVaddr.toNat + (phdr image i).pMemsz.toNat ≤ 2 ^ 47
  inside : ∀ i, IsLoad image i → (phdr image i).pOffset.toNat + (phdr image i).pFilesz.toNat ≤ file.length
  apart : ∀ i j a, IsLoad image i → IsLoad image j → i ≠ j →
    (phdr image i).pVaddr.toNat ≤ a → a < (phdr image i).pVaddr.toNat + (phdr image i).pMemsz.toNat →
    (phdr image j).pVaddr.toNat ≤ a → ¬a < (phdr image j).pVaddr.toNat + (phdr image j).pMemsz.toNat

/-- Every byte of every segment is in its place. -/
def Placed (file : List UInt8) (image : UInt64 → UInt8) (t : Machine) : Prop :=
  ∀ i, IsLoad image i → ∀ j < (phdr image i).pMemsz.toNat,
    viewOf t.mem t.cr3 ((phdr image i).pVaddr + .ofNat j) = fileByte file (phdr image i) j

/-- Where a page is mapped again, by a later segment or for the user, the earlier segment has only zeros. -/
def KeepsBytes (file : List UInt8) (image : UInt64 → UInt8) : Prop :=
  ∀ i, IsLoad image i → ∀ j < (phdr image i).pMemsz.toNat,
    (UserPage (((phdr image i).pVaddr.toNat + j) / 4096) ∨
      ∃ l, i < l ∧ IsLoad image l ∧ PageOf (phdr image l) (((phdr image i).pVaddr.toNat + j) / 4096)) → fileByte file (phdr image i) j = 0

theorem WellFormed.low (formed : WellFormed file image) (i : Nat) (load : IsLoad image i) : LowSegment (phdr image i) := by
  intro q page
  have area := formed.area i load
  unfold PageOf at page
  omega

theorem WellFormed.toNat (formed : WellFormed file image) (load : IsLoad image i) (small : j < (phdr image i).pMemsz.toNat) :
    ((phdr image i).pVaddr + .ofNat j).toNat = (phdr image i).pVaddr.toNat + j := by
  have area := formed.area i load
  rw [UInt64.toNat_add, UInt64.toNat_ofNat']
  omega

theorem WellFormed.own (formed : WellFormed file (imageOf file heap)) (load : IsLoad (imageOf file heap) i)
    (small : j < (phdr (imageOf file heap) i).pMemsz.toNat) :
    segmentByte (imageOf file heap) (phdr (imageOf file heap) i) ((phdr (imageOf file heap) i).pVaddr + .ofNat j) =
      fileByte file (phdr (imageOf file heap) i) j := by
  have sum := formed.toNat load small
  have inside := formed.inside i load
  have size := formed.size
  have bound := (phdr (imageOf file heap) i).pMemsz.toNat_lt
  generalize phdr (imageOf file heap) i = p at *
  unfold segmentByte fileByte
  rw [sum, toNat_copySize]
  by_cases copied : j < min p.pFilesz.toNat p.pMemsz.toNat
  · have back : p.pVaddr + .ofNat j - p.pVaddr = .ofNat j := by
      rw [UInt64.add_comm, UInt64.add_sub_cancel]
    have place : (p.pOffset + UInt64.ofNat j).toNat = p.pOffset.toNat + j := by
      rw [UInt64.toNat_add, UInt64.toNat_ofNat']
      omega
    rw [if_pos ⟨by omega, by omega⟩, if_pos copied, back]
    unfold imageOf
    rw [place, if_pos (by omega)]
  · rw [if_neg (by omega), if_neg copied]

theorem WellFormed.foreign (formed : WellFormed file image) (load : IsLoad image i) (load' : IsLoad image n) (differs : i ≠ n)
    (small : j < (phdr image i).pMemsz.toNat) : segmentByte image (phdr image n) ((phdr image i).pVaddr + .ofNat j) = 0 := by
  have apart := formed.apart i n ((phdr image i).pVaddr.toNat + j) load load' differs (by omega) (by omega)
  unfold segmentByte
  rw [formed.toNat load small, toNat_copySize, if_neg]
  rintro ⟨lower, upper⟩
  have := apart lower
  omega

theorem ProgramLoaded.placed_iff (program : ProgramLoaded s t map (imageOf file heap)) (formed : WellFormed file (imageOf file heap)) :
    Placed file (imageOf file heap) t ↔ KeepsBytes file (imageOf file heap) := by
  have register := program.loaded.register
  unfold Placed KeepsBytes
  rw [register]
  refine forall_congr' fun i => forall_congr' fun load => forall_congr' fun j => forall_congr' fun small => ?_
  have sum := formed.toNat load small
  have area := formed.area i load
  have user : ((phdr (imageOf file heap) i).pVaddr + UInt64.ofNat j).toNat < 2 ^ 47 := by omega
  have page : KeyOf (phdr (imageOf file heap) i) (pageKey ((phdr (imageOf file heap) i).pVaddr + .ofNat j)) := by
    rw [keyOf_iff (formed.low i load) user, sum]
    exact ⟨by omega, by omega⟩
  rw [← sum, ← userKey_iff user]
  by_cases stack : UserKey (pageKey ((phdr (imageOf file heap) i).pVaddr + .ofNat j))
  · rw [program.zero _ stack]
    exact ⟨fun same _ => same.symm, fun zero => (zero (.inl stack)).symm⟩
  · obtain ⟨l, later, of⟩ := exists_lastOf load load.1 page
    rw [program.bytes l _ user stack of]
    rcases Nat.eq_or_lt_of_le later with rfl | after
    · refine iff_of_true (formed.own load small) ?_
      rintro (impossible | ⟨l, later, load', shared⟩)
      · exact (stack impossible).elim
      · exact (of.last l later load'.1 load' ((keyOf_iff (formed.low l load') user).mpr shared)).elim
    · rw [formed.foreign load of.load (by omega) small]
      have shared := (keyOf_iff (formed.low l of.load) user).mp of.page
      exact ⟨fun same _ => same.symm, fun zero => (zero (.inr ⟨l, after, of.load, shared⟩)).symm⟩

/-- The bytes are in their places if and only if there are only zeros where a page is mapped again. -/
theorem load_bytes_iff (tables : FullTables x.machine x.machine.cr3) (reserved : x.machine.bitmap 0 = true)
    (formed : WellFormed file (imageOf file heap)) (run : (elf64Load (imageOf file heap)).run x = some (some entry, y)) :
    Placed file (imageOf file heap) y.machine ↔ KeepsBytes file (imageOf file heap) := by
  obtain ⟨map, program⟩ := elf64Load_run tables reserved formed.low run
  exact program.placed_iff formed

/-- An ELF header and the program headers of segments of one byte, with flags, offsets and addresses. -/
def programFile (segments : List (Nat × Nat × Nat)) : List UInt8 :=
  [0x7F, 0x45, 0x4C, 0x46, 2] ++ List.replicate 11 0 ++ leBytes 2 2 ++ leBytes 2 62 ++ List.replicate 4 0 ++ leBytes 8 0x8000000 ++
    leBytes 8 64 ++ List.replicate 16 0 ++ leBytes 2 segments.length ++ List.replicate 6 0 ++
    segments.flatMap fun (flags, offset, vaddr) => leBytes 4 1 ++ leBytes 4 flags ++ leBytes 8 offset ++ leBytes 8 vaddr ++ leBytes 8 vaddr ++
      leBytes 8 1 ++ leBytes 8 1 ++ leBytes 8 0x1000

/-- The second segment starts in the page of the first, as the linker script of the programs allows. -/
def sharedPage : List UInt8 := programFile [(5, 0, 0x8000000), (6, 1, 0x8000800)]

def sharedImage : UInt64 → UInt8 := imageOf sharedPage fun _ => 0

theorem shared_first : phdr sharedImage 0 = ⟨1, 5, 0, 0x8000000, 1, 1⟩ := by
  change Phdr.mk _ _ _ _ _ _ = _
  rw [Phdr.mk.injEq]
  decide +kernel

theorem shared_second : phdr sharedImage 1 = ⟨1, 6, 1, 0x8000800, 1, 1⟩ := by
  change Phdr.mk _ _ _ _ _ _ = _
  rw [Phdr.mk.injEq]
  decide +kernel

theorem shared_phnum : ePhnum sharedImage = 2 := by decide +kernel

theorem isLoad_shared : IsLoad sharedImage i ↔ i = 0 ∨ i = 1 := by
  unfold IsLoad
  rw [shared_phnum]
  constructor
  · rintro ⟨small, -⟩
    omega
  · rintro (rfl | rfl)
    · exact ⟨by decide, by rw [shared_first]⟩
    · exact ⟨by decide, by rw [shared_second]⟩

theorem shared_wellFormed : WellFormed sharedPage sharedImage where
  size := by decide +kernel
  area := by
    intro i load
    rcases isLoad_shared.mp load with rfl | rfl
    · rw [shared_first]
      decide
    · rw [shared_second]
      decide
  inside := by
    have long : sharedPage.length = 176 := by decide +kernel
    intro i load
    rw [long]
    rcases isLoad_shared.mp load with rfl | rfl
    · rw [shared_first]
      decide
    · rw [shared_second]
      decide
  apart := by
    have first : (0x8000000 : UInt64).toNat = 0x8000000 := rfl
    have second : (0x8000800 : UInt64).toNat = 0x8000800 := rfl
    have one : (1 : UInt64).toNat = 1 := rfl
    intro i j a load load' differs
    rcases isLoad_shared.mp load with rfl | rfl <;> rcases isLoad_shared.mp load' with rfl | rfl
    · exact (differs rfl).elim
    · rw [shared_first, shared_second]
      dsimp only
      omega
    · rw [shared_first, shared_second]
      dsimp only
      omega
    · exact (differs rfl).elim

theorem bootProcess_frames : 24 ≤ (freeFrames bootProcess.machine).card := by
  have some_ : Finset.Ico 303 327 ⊆ freeFrames bootProcess.machine := by
    intro f member
    rw [Finset.mem_Ico] at member
    unfold freeFrames
    rw [Finset.mem_filter, Finset.mem_range]
    change f < 65536 ∧ decide (f < 303) = false
    exact ⟨by omega, decide_eq_false (by omega)⟩
  have card := Finset.card_le_card some_
  rwa [Nat.card_Ico] at card

theorem shared_loads : ∃ y, (elf64Load sharedImage).run bootProcess = some (some (eEntry sharedImage), y) := by
  refine elf64Load_succeeds bootProcess_tables rfl (by decide +kernel) shared_wellFormed.low ?_
  have pages : pagesFrom sharedImage 0 = 2 := by
    unfold pagesFrom
    rw [shared_phnum, Finset.sum_Ico_succ_top (by decide), Finset.sum_Ico_succ_top (by decide), Finset.Ico_self, Finset.sum_empty,
      shared_first, shared_second]
    rfl
  rw [pages]
  exact bootProcess_frames

theorem load_bytes_iff_shared : ∃ y, (elf64Load sharedImage).run bootProcess = some (some (eEntry sharedImage), y) ∧
    (Placed sharedPage sharedImage y.machine ↔ KeepsBytes sharedPage sharedImage) := by
  obtain ⟨y, run⟩ := shared_loads
  exact ⟨y, run, load_bytes_iff bootProcess_tables rfl shared_wellFormed run⟩

theorem first_segment_lost : ¬ ∀ (x y : Kernel Fs.Disk) (file : List UInt8) (heap : UInt64 → UInt8) (entry : UInt64),
    FullTables x.machine x.machine.cr3 → x.machine.bitmap 0 = true → WellFormed file (imageOf file heap) →
    (elf64Load (imageOf file heap)).run x = some (some entry, y) → Placed file (imageOf file heap) y.machine := by
  intro all
  obtain ⟨y, run⟩ := shared_loads
  obtain ⟨map, program⟩ := elf64Load_run bootProcess_tables rfl shared_wellFormed.low run
  have keeps : KeepsBytes sharedPage sharedImage := (program.placed_iff shared_wellFormed).mp
    (all bootProcess y sharedPage _ _ bootProcess_tables rfl shared_wellFormed run)
  have zero := keeps 0 (isLoad_shared.mpr (.inl rfl)) 0
  rw [shared_first] at zero
  have lost := zero (by decide) (.inr ⟨1, by decide, isLoad_shared.mpr (.inr rfl), by rw [shared_second]; exact ⟨by decide, by decide⟩⟩)
  revert lost
  decide +kernel

end SwiftBSD.Proof.User
