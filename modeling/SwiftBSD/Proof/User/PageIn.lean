import SwiftBSD.Proof.Mm.Cow
import SwiftBSD.Proof.User.Filled
import SwiftBSD.Proof.User.Reading

namespace SwiftBSD.Proof.User
open Lib SwiftBSD.Mm SwiftBSD.Fs SwiftBSD.Vfs SwiftBSD.Sched SwiftBSD.User SwiftBSD.Proof.Mm SwiftBSD.Proof.Sched SwiftBSD.Proof.Fs SwiftBSD.Proof.Vfs
open Mapped (MapStep MapRun FileRun)

section File
variable {R : Nat → Prop} {V : Vol} {D : Nat → List (List Rec)} {v : VfsState Disk} {i j : Nat}

end File

section Page
variable {s t : Machine} {virt e : UInt64} {g : Nat}

end Page

theorem openedFile_cache_128 : ∃ (img : Disk) (m₀ m : FsState Cache) (V : Vol) (D : Nat → List (List Rec)) (d i : Nat), mkfs 128 = some img ∧
    swiftfs2Mount.run (FsState.boot (Cache.boot img) fun _ => true) = some (0, m₀) ∧ ReachBoot (Checked Careful) m₀ m ∧
    HeldVol (Geometry.Reserved (Geometry.ofMb 128)) (viewed m) V D ∧ (files V).cursor d = some (i, 0) ∧
    (files V).bytes i = some [0x68, 0x69] ∧ d < 64 ∧ (m.fds d).flags = oRdonly := by
  obtain ⟨img, m₀, v, t', i, made, mounted, reach, named, file, stored, free⟩ := storedFile_cache_128 [0x68, 0x69] (by decide)
  obtain ⟨⟨L, stands⟩, -, V, D, vol⟩ := held_viewed (by decide) made mounted reach
  obtain ⟨leads, bytes⟩ := vol.namedFile named file
  obtain ⟨d, u, opens, small, -, vol'⟩ := run_openAt vol leads bytes ⟨2, by decide, by decide, free 2⟩
  have careful : Careful (viewed v) (.open_ filePath oRdonly) := by
    refine ⟨⟨by decide, fun creat => absurd (by decide) creat⟩, fun i' t found => ⟨?_, fun trunc => absurd (by decide) trunc⟩⟩
    obtain ⟨same, -⟩ := Prod.mk.inj (Option.some.inj (found.symm.trans named))
    obtain rfl := Option.some.inj same
    exact (isFile_iff.mp file).1
  have answer : (Call.open_ filePath oRdonly).exec.run (viewed v) = some (.ofValue d, u) := by
    change StateT.run (swiftfs2Open filePath.bytes oRdonly >>= _) (viewed v) = _
    rw [run_bind_some opens]
    rfl
  have notSync : Call.open_ filePath oRdonly ≠ .sync := fun same => nomatch same
  have noStale := stands.reading (c := .open_ filePath oRdonly) ⟨by decide, by decide⟩ answer
  obtain ⟨r, m, run⟩ := noStale.run notSync
  obtain ⟨-, seen⟩ := noStale.viewed notSync stands run
  obtain ⟨-, rfl⟩ := Prod.mk.inj (Option.some.inj (answer.symm.trans seen))
  have cursor : (files (V.setFd d ⟨i, 0, oRdonly, false⟩)).cursor d = some (i, 0) := by
    obtain ⟨-, plain, -⟩ := files_bytes_some bytes
    rw [files_setFd, cursorOf, if_pos ⟨Nat.pos_iff_ne_zero.mp (resolve_pos leads), plain⟩]
    exact Function.update_self _ _ _
  refine ⟨img, m₀, m, _, D, d, i, made, mounted, .call reach ⟨notSync, careful, noStale⟩ run, vol', cursor, by rw [bytes_setFd, bytes, stored], small, ?_⟩
  have same : m.fds d = (V.setFd d ⟨i, 0, oRdonly, false⟩).fds d := congrFun vol'.rep.fds d
  rw [same]
  exact congrArg Fd.flags (Function.update_self d ⟨i, 0, oRdonly, false⟩ V.fds)

theorem openedFile_128 : ∃ img s₀ u V D d i, mkfs 128 = some img ∧ swiftfs2Mount.run (FsState.boot img fun _ => true) = some (0, s₀) ∧
    ReachBoot Careful s₀ u ∧ HeldVol (Geometry.Reserved (Geometry.ofMb 128)) u V D ∧ (files V).cursor d = some (i, 0) ∧
    (files V).bytes i = some [0x68, 0x69] ∧ d < 64 ∧ (u.fds d).flags = oRdonly := by
  obtain ⟨img, m₀, m, V, D, d, i, made, mounted, reach, rest⟩ := openedFile_cache_128
  exact ⟨img, viewed m₀, viewed m, V, D, d, i, made, (mounted_viewed mounted).2, (held_viewed (by decide) made mounted reach).2.1, rest⟩

def openVolume (w : VfsState Disk) (vmas : Vmas) (m : Machine) : Kernel Disk :=
  { bootProcess with
    procs := Function.update bootProcess.procs 0 { bootProcess.procs 0 with vmas, fds := w.fds }
    vfs := w
    machine := m }

def noMapping : Vmas := ⟨fun _ => ⟨0, 0, 0, 0, 0, 0, false⟩, 0⟩

/-- A private mapping of the first page of a file that is open in slot 2. -/
def privateMapping : Vmas := ⟨Function.update noMapping.entry 0 ⟨0x50000000, 0x50001000, 2, 2, 2, 0, true⟩, 1⟩

section Private
variable {w : VfsState Disk} {m : Machine} {pagePml4 addr stop : UInt64}

theorem setVmas_openVolume (t u : Vmas) : (Mapped.setVmas u).run (openVolume w t m) = some ((), openVolume w u m) := by
  change some ((), (openVolume w t m).setProc 0 { (openVolume w t m).current with vmas := u }) = _
  unfold openVolume Kernel.setProc Kernel.current
  dsimp only
  rw [Function.update_idem]
  rfl

theorem private_mmap : MapStep pagePml4 (openVolume w noMapping m) (.paging (.mmap 0x50000000 4096 0x200000002 0)) (openVolume w privateMapping m) := by
  refine @MapStep.paging _ _ _ _ _ 0 _ ?_
  change StateT.run (Mapped.scMmap 0x50000000 4096 0x200000002 0 >>= _) _ = _
  unfold Mapped.scMmap
  dsimp only
  rw [if_neg (by decide), bind_assoc, run_bind_some (x := get) rfl]
  change StateT.run ((Mapped.setVmas privateMapping >>= _) >>= _) _ = _
  rw [bind_assoc, run_bind_some (setVmas_openVolume _ _)]
  rfl

theorem private_fault : ∃ t, MapStep pagePml4 (openVolume w privateMapping bootProcess.machine) (.paging (.fault 0x50000123 6))
    (openVolume w privateMapping t) := by
  obtain ⟨t, g, run, -, -⟩ := @zeroFault_succeeds 0x50000123 _ true bootProcess_tables rfl bootProcess_enough
  refine ⟨t, @MapStep.paging _ _ _ _ _ 0 _ ?_⟩
  change (exceptionHandler 0x50000123 6).run _ = _
  rw [handler_zero (by decide) (by decide) (by decide)]
  exact run_onMachine (s := openVolume w privateMapping bootProcess.machine) run

theorem writeback_private {v : Vma} {s : Kernel Disk} (own : v.flags &&& 1 = 0) :
    (Mapped.vmaWritebackDirty pagePml4 addr stop v).run s = some ((), s) := by
  unfold Mapped.vmaWritebackDirty
  rw [if_pos (.inr own)]
  rfl

theorem private_msync : MapStep pagePml4 (openVolume w privateMapping m) (.paging (.msync 0x50000000 4096)) (openVolume w privateMapping m) := by
  refine @MapStep.paging _ _ _ _ _ 0 _ ?_
  obtain ⟨t, run, rfl⟩ : ∃ t, (forRange (Mapped.syncSlot pagePml4 0x50000000 (0x50000000 + roundUp 4096)) 0 vmaMax).run _ = some ((), t) ∧
      t = openVolume w privateMapping m :=
    forRange_succeeds (fun _ t => t = openVolume w privateMapping m) rfl fun j s _ _ same => by
      subst same
      refine ⟨_, ?_, rfl⟩
      unfold Mapped.syncSlot
      rw [run_bind_some (x := get) rfl]
      dsimp only
      split
      · refine writeback_private ?_
        change ((Function.update noMapping.entry 0 _ j).flags &&& 1 : Int32) = 0
        by_cases zero : j = 0
        · subst zero
          decide
        · rw [Function.update_of_ne zero]
          change (0 : Int32) &&& 1 = 0
          decide
      · rfl
  change (Mapped.scMsync pagePml4 0x50000000 4096 >>= _).run _ = _
  unfold Mapped.scMsync
  rw [if_neg (by decide), bind_assoc, run_bind_some run]
  rfl

theorem unmapFrom_none {s : Kernel Disk} {fuel i : Nat} (none : ∀ j, i ≤ j → overlaps (s.current.vmas.entry j) addr stop = false)
    (enough : vmaMax < fuel + i) (bound : i ≤ vmaMax) : (Mapped.unmapFrom pagePml4 addr stop fuel i).run s = some (true, s) := by
  induction fuel generalizing i with
  | zero => omega
  | succ fuel ih =>
      unfold Mapped.unmapFrom
      by_cases last : vmaMax ≤ i
      · rw [if_pos last]
        rfl
      · rw [if_neg last, run_bind_some (x := get) rfl]
        dsimp only
        rw [none i (Nat.le_refl i), if_neg (by decide)]
        exact ih (fun j after => none j (by omega)) (by omega) (by omega)

theorem freedMapping_overlaps (j : Nat) (after : 1 ≤ j) : overlaps ((vmaTryMerge (freeSlot privateMapping 0) 0).entry j) addr stop = false := by
  have entry : (vmaTryMerge (freeSlot privateMapping 0) 0).entry j = ⟨0, 0, 0, 0, 0, 0, false⟩ := by
    change (Function.update (Function.update noMapping.entry 0 _) 0 _) j = _
    rw [Function.update_of_ne (by omega), Function.update_of_ne (by omega)]
    rfl
  rw [entry]
  rfl

theorem private_munmap : ∃ u t, MapStep pagePml4 (openVolume w privateMapping m) (.paging (.munmap 0x50000000 4096)) (openVolume w u t) := by
  obtain ⟨t, unmap⟩ := vmmUnmap_total pagePml4 0x50000000 m
  have pages : (Mapped.vmaUnmapPages pagePml4 0x50000000 0x50001000).run (openVolume w privateMapping m) = some ((), openVolume w privateMapping t) := by
    unfold Mapped.vmaUnmapPages Mapped.forPages
    rw [if_pos (by decide), show pageCount 0x50000000 0x50001000 = 1 by decide]
    unfold forRange
    exact run_bind_some (run_onMachine (s := openVolume w privateMapping m) unmap)
  have slot : (Mapped.unmapSlot pagePml4 0).run (openVolume w privateMapping m) = some ((), openVolume w (vmaTryMerge (freeSlot privateMapping 0) 0) t) := by
    unfold Mapped.unmapSlot
    rw [run_bind_some (x := get) rfl]
    change StateT.run (Mapped.vmaWritebackDirty pagePml4 0x50000000 0x50001000 ⟨0x50000000, 0x50001000, 2, 2, 2, 0, true⟩ >>= _) _ = _
    rw [run_bind_some (writeback_private (by decide))]
    change StateT.run (Mapped.vmaUnmapPages pagePml4 0x50000000 0x50001000 >>= _) _ = _
    rw [run_bind_some pages, run_bind_some (x := get) rfl]
    exact setVmas_openVolume _ _
  refine ⟨vmaTryMerge (freeSlot privateMapping 0) 0, t, @MapStep.paging _ _ _ _ _ (vmaMax + 2) _ ?_⟩
  have rest : (Mapped.unmapFrom pagePml4 0x50000000 (0x50000000 + roundUp 4096) (vmaMax + 1) 1).run
      (openVolume w (vmaTryMerge (freeSlot privateMapping 0) 0) t) = _ :=
    unmapFrom_none (fun j after => freedMapping_overlaps j after) (by omega) (by decide)
  have all : (Mapped.unmapFrom pagePml4 0x50000000 (0x50000000 + roundUp 4096) (vmaMax + 2) 0).run (openVolume w privateMapping m) =
      some (true, openVolume w (vmaTryMerge (freeSlot privateMapping 0) 0) t) := by
    unfold Mapped.unmapFrom
    rw [if_neg (by decide), run_bind_some (x := get) rfl]
    change StateT.run (Mapped.setVmas privateMapping >>= fun _ => Mapped.unmapSlot pagePml4 0 >>= fun _ => _) _ = _
    rw [run_bind_some (setVmas_openVolume _ _), run_bind_some slot]
    exact rest
  change StateT.run (Mapped.scMunmap pagePml4 (vmaMax + 2) 0x50000000 4096 >>= _) _ = _
  unfold Mapped.scMunmap
  rw [if_neg (by decide), bind_assoc, run_bind_some all]
  rfl

theorem privateMapping_own (i : Nat) : ¬Shared (privateMapping.entry i) := by
  rintro ⟨-, shared⟩
  by_cases zero : i = 0
  · subst zero
    exact shared (by decide)
  · refine shared ?_
    change (Function.update noMapping.entry 0 _ i).flags &&& 1 = 0
    rw [Function.update_of_ne zero]
    change (0 : Int32) &&& 1 = 0
    decide

theorem unmapped_none {fuel i : Nat} {u : Vmas} (none : ∀ j, i ≤ j → overlaps (u.entry j) addr stop = false) : unmapped addr stop fuel i u = [] := by
  induction fuel generalizing i with
  | zero => rfl
  | succ fuel ih =>
      unfold unmapped
      rw [none i (Nat.le_refl i)]
      split
      · rfl
      · exact ih fun j after => none j (by omega)

theorem unmapped_private {fuel : Nat} {v : Vma} (member : v ∈ unmapped 0x50000000 (0x50000000 + roundUp 4096) fuel 0 privateMapping) : ¬Shared v := by
  cases fuel with
  | zero => cases member
  | succ fuel =>
      unfold unmapped at member
      rw [if_neg (by decide), if_pos (by decide)] at member
      change v ∈ privateMapping.entry 0 :: unmapped _ _ fuel 1 (vmaTryMerge (freeSlot privateMapping 0) 0) at member
      rw [unmapped_none fun j after => freedMapping_overlaps j after] at member
      obtain rfl := List.mem_singleton.mp member
      exact privateMapping_own 0

end Private

theorem paging_invisible_private : ∃ w t, Volume w.fs ∧
    MapRun 0x110000 (Unnoticed 0x110000) (openVolume w noMapping bootProcess.machine) [.paging (.mmap 0x50000000 4096 0x200000002 0),
      .paging (.fault 0x50000123 6), .paging (.msync 0x50000000 4096), .paging (.munmap 0x50000000 4096),
      .file (.read 2 2) (.done 2 [0x68, 0x69])] t ∧ FileRun w [(.read 2 2, .done 2 [0x68, 0x69])] (Kernel.files t) := by
  obtain ⟨img, s₀, u, V, D, d, i, made, mounted, reach, vol, cursor, bytes, small, flags⟩ := openedFile_128
  let w : VfsState Disk := { SwiftBSD.Proof.Vfs.oneFile with fs := u, fds := Function.update SwiftBSD.Proof.Vfs.oneFile.fds 2 ⟨some .swiftfs, d, 0, 0, 1⟩ }
  have on : OnFile w V oRdonly 2 d i 0 := ⟨cursor, small, flags, by decide, rfl⟩
  obtain ⟨x, V', reads, -, -, -, -⟩ := on.reads vol (n := 2) bytes (by decide) (by decide)
  obtain ⟨m, fault⟩ := @private_fault w 0x110000
  obtain ⟨vmas, m', unmap⟩ := @private_munmap w m 0x110000
  have faults : Unnoticed 0x110000 (openVolume w privateMapping bootProcess.machine) (.paging (.fault 0x50000123 6)) :=
    fun _ read => absurd read (by decide)
  have syncs : Unnoticed 0x110000 (openVolume w privateMapping m) (.paging (.msync 0x50000000 4096)) :=
    fun i _ _ shared => absurd shared (privateMapping_own i)
  have unmaps : Unnoticed 0x110000 (openVolume w privateMapping m) (.paging (.munmap 0x50000000 4096)) :=
    fun _ v member shared => absurd shared (unmapped_private member)
  have mapped : MapRun 0x110000 (Unnoticed 0x110000) (openVolume w noMapping bootProcess.machine) _ _ :=
    MapRun.start.step (by trivial) private_mmap
  have file : MapStep 0x110000 (openVolume w vmas m') (.file (.read 2 2) (.done 2 [0x68, 0x69])) _ := .file (run_onVfs reads)
  have read := (((mapped.step faults fault).step syncs private_msync).step unmaps unmap).step (by trivial) file
  exact ⟨w, _, ⟨128, img, _, s₀, by decide, made, mounted, reachBoot_admissible reach⟩, read, (paging_invisible read).1⟩

end SwiftBSD.Proof.User
