import SwiftBSD.Mm.Paging
import SwiftBSD.Proof.Mm.Boot
import SwiftBSD.Proof.Mm.Page
import SwiftBSD.Proof.Mm.PmmInit

namespace SwiftBSD.Proof.Mm
open Lib SwiftBSD.Mm

variable {m s t u : Machine} {b f g p i : Nat} {a virt : UInt64} {bssEnd total : UInt64} {tags : List MbootTag} {live : List UInt64}

def Blank (m : Machine) (b : Nat) : Prop := ∀ f i, b ≤ f → f < b + 3 → m.mem f i = 0

theorem setLow_run {phys : UInt64} {value : UInt32} (blank : s.mem (frameOf phys) i = 0)
    (run : (setLow phys i value).run s = some ((), t)) : t = setEntry s (frameOf phys) i value.toUInt64 := by
  unfold setLow word at run
  rw [bind_assoc, run_bind_some (x := get) rfl, pure_bind, blank] at run
  rw [UInt64.zero_and, UInt64.zero_or] at run
  exact setWord_run run

theorem toUInt64_link (bound : f ≤ maxPages) : ((addrOf f).toUInt32 + 7).toUInt64 = newEntry true f := by
  apply UInt64.toNat_inj.mp
  have address : (addrOf f).toNat = 4096 * f := toNat_addrOf bound
  rw [toNat_newEntry bound, UInt32.toNat_toUInt64, UInt32.toNat_add, UInt64.toNat_toUInt32, address]
  unfold maxPages at bound
  change (4096 * f % 2 ^ 32 + 7) % 2 ^ 32 = 4096 * f + 7
  omega

theorem toUInt64_page (small : i < 64) : (0x83 + 0x200000 * UInt32.ofNat i).toUInt64 = 0x83 + 0x200000 * UInt64.ofNat i := by
  apply UInt64.toNat_inj.mp
  have index : (UInt32.ofNat i).toNat = i := UInt32.toNat_ofNat_of_lt' (by change i < 2 ^ 32; omega)
  rw [toNat_bootPage small, UInt32.toNat_toUInt64, UInt32.toNat_add, UInt32.toNat_mul, index]
  change (0x83 + 0x200000 * i % 2 ^ 32) % 2 ^ 32 = _
  omega

/-- The first `j` entries of the page directory are written. -/
structure Written (m : Machine) (b j : Nat) (v : Machine) : Prop where
  others : ∀ f i, f ≠ b + 2 → v.mem f i = m.mem f i
  written : ∀ i, v.mem (b + 2) i = if i < j then 0x83 + 0x200000 * .ofNat i else 0

theorem Written.step {j : Nat} {v w : Machine} (written : Written m b j v) (small : j < 64) (bound : b + 2 ≤ maxPages)
    (run : (setLow (addrOf (b + 2)) j (0x83 + 0x200000 * .ofNat j)).run v = some ((), w)) : Written m b (j + 1) w := by
  have frame : frameOf (addrOf (b + 2)) = b + 2 := frameOf_addrOf bound
  have zero : v.mem (frameOf (addrOf (b + 2))) j = 0 := by rw [frame, written.written, if_neg (Nat.lt_irrefl j)]
  have step := setLow_run zero run
  rw [frame, toUInt64_page small] at step
  rw [step]
  refine ⟨fun f i other => by rw [setEntry_other other, written.others f i other], fun i => ?_⟩
  rw [setEntry_same, Function.update_apply, written.written]
  by_cases same : i = j
  · rw [if_pos same, if_pos (by omega), same]
  · rw [if_neg same]
    by_cases before : i < j
    · rw [if_pos before, if_pos (by omega)]
    · rw [if_neg before, if_neg (by omega)]

theorem setupPaging_words (bound : b + 2 ≤ maxPages) (blank : Blank m b)
    (run : (setupPaging (addrOf b) (addrOf (b + 1)) (addrOf (b + 2))).run m = some ((), s)) :
    ∀ f i, b ≤ f → f < b + 3 → s.mem f i = bootWord b f i := by
  have frame₀ : frameOf (addrOf b) = b := frameOf_addrOf (by omega)
  have frame₁ : frameOf (addrOf (b + 1)) = b + 1 := frameOf_addrOf (by omega)
  unfold setupPaging at run
  obtain ⟨_, m₁, first, run⟩ := run_bind_eq_some.mp run
  obtain ⟨_, m₂, second, fill⟩ := run_bind_eq_some.mp run
  have first := setLow_run (blank _ _ (by omega) (by omega)) first
  rw [frame₀, toUInt64_link (by omega)] at first
  have zero : m₁.mem (frameOf (addrOf (b + 1))) 0 = 0 := by
    rw [first, frame₁, setEntry_other (by omega)]
    exact blank _ _ (by omega) (by omega)
  have second := setLow_run zero second
  rw [frame₁, toUInt64_link bound] at second
  have start : Written m₂ b 0 m₂ := by
    refine ⟨fun _ _ _ => rfl, fun i => ?_⟩
    rw [if_neg (Nat.not_lt_zero i), second, setEntry_other (by omega), first, setEntry_other (by omega)]
    exact blank _ _ (by omega) (by omega)
  have done : Written m₂ b (0 + 64) s :=
    forRange_run (Written m₂ b) start (fun j v w _ upper written step => written.step (by omega) bound step) fill
  intro f i lower upper
  unfold bootWord
  by_cases root : f = b
  · rw [if_pos root, done.others f i (by omega), second, setEntry_other (by omega), first, root, setEntry_same, Function.update_apply,
      blank b i (by omega) (by omega)]
  rw [if_neg root]
  by_cases middle : f = b + 1
  · rw [if_pos middle, done.others f i (by omega), second, middle, setEntry_same, Function.update_apply, first,
      setEntry_other (by omega), blank (b + 1) i (by omega) (by omega)]
  obtain rfl : f = b + 2 := by omega
  rw [if_neg (by omega), if_pos rfl, done.written]

theorem tableOf_small (small : g ≤ maxPages) : tableOf (newEntry true g) = g := by
  have value : (newEntry true g).toNat = _ := toNat_newEntry small
  unfold tableOf
  rw [value]
  unfold maxPages at small
  simp only [if_true]
  omega

theorem present_newEntry (small : g ≤ maxPages) : newEntry true g &&& pgPresent ≠ 0 ∧ newEntry true g &&& pgHuge = 0 :=
  have ⟨present, notHuge, _⟩ := next_some (next_newEntry small)
  ⟨present, notHuge⟩

section Maps
variable {mem : Mem} (bound : b + 2 ≤ maxPages) (words : ∀ f i, b ≤ f → f < b + 3 → mem f i = bootWord b f i)
include bound words

theorem boot_walk (low : virt.toNat < 2 ^ 30) :
    translate mem (addrOf b) virt = (translateFrom mem virt 1 (b + 2)).map fun t =>
      (t.restrict (newEntry true (b + 2))).restrict (newEntry true (b + 1)) := by
  have root : tableOf (addrOf b) = b := by
    have address : (addrOf b).toNat = 4096 * b := toNat_addrOf (by omega)
    unfold tableOf
    unfold maxPages at bound
    omega
  have three : index 3 virt = 0 := by
    rw [index_three]
    omega
  have two : index 2 virt = 0 := by
    rw [index_two]
    omega
  have first : mem b 0 = newEntry true (b + 1) := by rw [words b 0 (by omega) (by omega), bootWord_root, if_pos rfl]
  have second : mem (b + 1) 0 = newEntry true (b + 2) := by rw [words _ 0 (by omega) (by omega), bootWord_pdpt, if_pos rfl]
  have ⟨present₁, notHuge₁⟩ := present_newEntry (g := b + 1) (by omega)
  have ⟨present₂, notHuge₂⟩ := present_newEntry bound
  unfold SwiftBSD.Mm.translate
  rw [root, translateFrom_succ, three, first, if_neg present₁, if_neg (not_not.mpr notHuge₁), tableOf_small (by omega),
    translateFrom_succ, two, second, if_neg present₂, if_neg (not_not.mpr notHuge₂), tableOf_small bound, Option.map_map]
  rfl

theorem boot_identity (low : virt.toNat < 0x8000000) : ∃ t, translate mem (addrOf b) virt = some t ∧ t.phys = virt.toNat ∧ t.write = true := by
  have small : virt.toNat / 2 ^ 21 < 64 := by omega
  have one : index 1 virt = virt.toNat / 2 ^ 21 := by
    rw [index_one]
    omega
  have entry : mem (b + 2) (index 1 virt) = 0x83 + 0x200000 * .ofNat (virt.toNat / 2 ^ 21) := by
    rw [words _ _ (by omega) (by omega), bootWord_pd, one, if_pos small]
  have value := toNat_bootPage small
  have present : ¬mem (b + 2) (index 1 virt) &&& pgPresent = 0 := by
    rw [entry, and_pgPresent, value]
    omega
  have huge : mem (b + 2) (index 1 virt) &&& pgHuge ≠ 0 := by
    rw [entry, Ne, and_pgHuge, value]
    omega
  have writable : mem (b + 2) (index 1 virt) &&& pgWrite ≠ 0 := by
    rw [entry, Ne, and_pgWrite, value]
    omega
  have link (g : Nat) (bound : g ≤ maxPages) : newEntry true g &&& pgWrite ≠ 0 := by
    have value : (newEntry true g).toNat = _ := toNat_newEntry bound
    rw [Ne, and_pgWrite, value]
    simp only [if_true]
    omega
  refine ⟨((leafAt 1 (mem (b + 2) (index 1 virt)) virt).restrict (newEntry true (b + 2))).restrict (newEntry true (b + 1)), ?_, ?_, ?_⟩
  · rw [boot_walk bound words (by omega), translateFrom_succ, if_neg present, if_pos huge, if_pos (by decide), Option.map_some]
  · change (mem (b + 2) (index 1 virt)).toNat % 2 ^ 52 / (4096 * 512 ^ 1) * (4096 * 512 ^ 1) + virt.toNat % (4096 * 512 ^ 1) = virt.toNat
    rw [entry, value]
    omega
  · simp [Translation.restrict, leafAt, writable, link (b + 2) bound, link (b + 1) (by omega)]

theorem boot_unmapped (high : 0x8000000 ≤ virt.toNat) (low : virt.toNat < 2 ^ 30) : translate mem (addrOf b) virt = none := by
  have one : index 1 virt = virt.toNat / 2 ^ 21 := by
    rw [index_one]
    omega
  have entry : mem (b + 2) (index 1 virt) = 0 := by
    rw [words _ _ (by omega) (by omega), bootWord_pd, one, if_neg (by omega)]
  rw [boot_walk bound words low, translateFrom_succ, entry, if_pos UInt64.zero_and, Option.map_none]

end Maps

theorem pmmRun_below (below : p < s.lastPhysPage) (clear : s.bitmap p = false) {k : Nat} (small : k ≤ p) :
    ∃ live t, PmmRun s live t ∧ t.lastPhysPage = s.lastPhysPage ∧ t.bitmap p = false ∧ ∀ i < k, t.bitmap i = true := by
  induction k with
  | zero => exact ⟨[], s, .start, rfl, clear, fun i less => by cases less⟩
  | succ k ih =>
      obtain ⟨live, t, run, last, clear, first⟩ := ih (by omega)
      by_cases free : t.bitmap k = false
      · have alloc := pageAlloc_lowest (by omega) free first
        refine ⟨_, _, .alloc run alloc, last, ?_, fun i less => ?_⟩
        · dsimp only
          rw [Function.update_of_ne (by omega)]
          exact clear
        · dsimp only
          rw [Function.update_apply]
          split
          · rfl
          · exact first i (by omega)
      · refine ⟨live, t, run, last, clear, fun i less => ?_⟩
        by_cases before : i < k
        · exact first i before
        · obtain rfl : i = k := by omega
          simpa using free

theorem pmmRun_reaches (below : p < s.lastPhysPage) (clear : s.bitmap p = false) :
    ∃ live t u, PmmRun s live t ∧ pageAlloc.run t = some (addrOf p, u) := by
  obtain ⟨live, t, run, last, clear, first⟩ := pmmRun_below below clear (Nat.le_refl p)
  exact ⟨live, t, _, run, pageAlloc_lowest (by omega) clear first⟩

/-- The frame at `a` can be used through its own address, and no user program is linked to that address. -/
structure Reached (mem : Mem) (cr3 a : UInt64) : Prop where
  identity : ∀ off < 4096, ∃ t, translate mem cr3 (a + .ofNat off) = some t ∧ t.phys = a.toNat + off ∧ t.write = true
  low : a.toNat + 4096 ≤ 0x8000000

/-- Every frame that the allocator can give out is reached if and only if the memory map has no page for it from 128 MB on. -/
theorem frames_reached_iff (bound : b + 2 ≤ maxPages) (blank : Blank m b)
    (paging : (setupPaging (addrOf b) (addrOf (b + 1)) (addrOf (b + 2))).run m = some ((), s))
    (kernel : bssEnd.toNat + kheapSize.toNat < 512 * 1024 * 1024) (run : (pmmInit bssEnd tags).run s = some (total, t)) :
    (∀ live u a v, PmmRun t live u → pageAlloc.run u = some (a, v) → a ≠ 0 → Reached s.mem (addrOf b) a) ↔
      ∀ e ∈ available tags, ∀ p, e.firstPage ≤ p → p < e.endPage → kernelEndPage bssEnd ≤ p → 4096 * p < 0x8000000 := by
  have words := setupPaging_words bound blank paging
  have booted := pmmInit_run run
  have positive := kernelEndPage_pos kernel
  constructor
  · intro reached e member p first stop behind
    have free : t.bitmap p = false := (booted.bitmap p).mpr ⟨behind, e, member, first, stop⟩
    have small := booted.bound free
    obtain ⟨live, u, v, run, alloc⟩ := pmmRun_reaches (booted.last p free) free
    have value : (addrOf p).toNat = 4096 * p := toNat_addrOf small.le
    have nonzero : addrOf p ≠ 0 := by
      intro zero
      have values := congrArg UInt64.toNat zero
      rw [value] at values
      change 4096 * p = 0 at values
      omega
    have low := (reached live u _ v run alloc nonzero).low
    omega
  · intro low live u a v run alloc nonzero
    cases pageAlloc_alloc alloc with
    | none empty => exact (nonzero rfl).elim
    | @took g small free first =>
        have initial := ((pmmRun_inv booted positive run).bitmap g).mp free |>.1
        have bound' := booted.bound initial
        obtain ⟨behind, e, member, first, stop⟩ := (booted.bitmap g).mp initial
        have small := low e member g first stop behind
        have value : (addrOf g).toNat = 4096 * g := toNat_addrOf bound'.le
        refine ⟨fun off inside => ?_, by omega⟩
        have sum : (addrOf g + UInt64.ofNat off).toNat = 4096 * g + off := by
          rw [UInt64.toNat_add, value, UInt64.toNat_ofNat_of_lt' (by change off < 2 ^ 64; omega)]
          omega
        have inLow : (addrOf g + UInt64.ofNat off).toNat < 0x8000000 := by omega
        obtain ⟨tr, maps, phys, write⟩ := boot_identity bound words inLow
        exact ⟨tr, maps, by rw [phys, sum, value], write⟩

theorem setLow_total (phys : UInt64) (i : Nat) (value : UInt32) (s : Machine) : ∃ t, (setLow phys i value).run s = some ((), t) :=
  ⟨_, rfl⟩

theorem setupPaging_total (pml4 pdpt pd : UInt64) (s : Machine) : ∃ t, (setupPaging pml4 pdpt pd).run s = some ((), t) := by
  obtain ⟨u, first⟩ := setLow_total pml4 0 (pdpt.toUInt32 + 7) s
  obtain ⟨v, second⟩ := setLow_total pdpt 0 (pd.toUInt32 + 7) u
  have page (i : Nat) (w : Machine) : ∃ t, (setLow pd i (0x83 + 0x200000 * .ofNat i)).run w = some ((), t) := setLow_total pd i _ w
  obtain ⟨t, fill⟩ := forRange_total page 0 64 v
  refine ⟨t, ?_⟩
  unfold setupPaging
  rw [run_bind_some first, run_bind_some second, fill]

theorem frames_reached_128 : ∃ s total t, (setupPaging (addrOf 0x300) (addrOf 0x301) (addrOf 0x302)).run noMemory = some ((), s) ∧
    (pmmInit 0x400000 (oneRegion 0x100000 0x7F00000)).run s = some (total, t) ∧
    ∀ live u a v, PmmRun t live u → pageAlloc.run u = some (a, v) → a ≠ 0 → Reached s.mem (addrOf 0x300) a := by
  obtain ⟨s, paging⟩ := setupPaging_total (addrOf 0x300) (addrOf 0x301) (addrOf 0x302) noMemory
  obtain ⟨total, t, run⟩ := pmmInit_total (oneRegion_ends 0x100000 0x7F00000) (by decide : kernelEndPage 0x400000 ≤ maxPages) s
  refine ⟨s, total, t, paging, run, (frames_reached_iff (by decide) (fun _ _ _ _ => rfl) paging (by decide) run).mpr ?_⟩
  rw [available_oneRegion]
  intro e member p _ stop _
  obtain rfl := List.mem_singleton.mp member
  have last : (MmapEntry.mk 0x100000 0x7F00000 1).endPage = 0x8000 := by decide
  omega

/-- On a machine with 256 MB the page at 128 MB is given out sooner or later, and the kernel faults when it touches it. -/
theorem frame_unmapped : ∃ s total t live u v, Blank noMemory 0x300 ∧
    (setupPaging (addrOf 0x300) (addrOf 0x301) (addrOf 0x302)).run noMemory = some ((), s) ∧
    (pmmInit 0x400000 (oneRegion 0x100000 0xFF00000)).run s = some (total, t) ∧ PmmRun t live u ∧
    pageAlloc.run u = some (0x8000000, v) ∧ translate s.mem (addrOf 0x300) 0x8000000 = none := by
  obtain ⟨s, paging⟩ := setupPaging_total (addrOf 0x300) (addrOf 0x301) (addrOf 0x302) noMemory
  obtain ⟨total, t, run⟩ := pmmInit_total (oneRegion_ends 0x100000 0xFF00000) (by decide : kernelEndPage 0x400000 ≤ maxPages) s
  have blank : Blank noMemory 0x300 := fun _ _ _ _ => rfl
  have booted := pmmInit_run run
  have free : t.bitmap 0x8000 = false := by
    refine (booted.bitmap _).mpr ⟨by decide, ⟨0x100000, 0xFF00000, 1⟩, ?_, by unfold Covers; decide⟩
    rw [available_oneRegion]
    exact List.mem_singleton.mpr rfl
  obtain ⟨live, u, v, history, alloc⟩ := pmmRun_reaches (booted.last _ free) free
  exact ⟨s, total, t, live, u, v, blank, paging, run, history, alloc,
    boot_unmapped (by decide) (setupPaging_words (by decide) blank paging) (by decide) (by decide)⟩

end SwiftBSD.Proof.Mm
