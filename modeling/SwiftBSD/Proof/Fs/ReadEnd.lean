import SwiftBSD.Fs.Mkfs
import SwiftBSD.Proof.Fs.FileIO

namespace SwiftBSD.Proof.Fs
open Lib SwiftBSD.Fs

variable {s : FsState Disk} {x : Inode}

theorem run_bmapRead (x : Inode) (l : Nat) : (bmapRead x l false).run s = some ((.ofNat (fileBlock s.dev.block x l), x), s) := by
  unfold bmapRead fileBlock
  by_cases direct : l < 12
  · rw [dif_pos direct, dif_pos direct, Bool.and_false, if_neg Bool.false_ne_true, UInt32.ofNat_toNat]
    rfl
  rw [dif_neg direct, dif_neg direct]
  by_cases small : l - 12 < 1024
  · rw [if_pos small]
    by_cases none : x.indirect = 0
    · rw [if_pos none, if_neg Bool.false_ne_true, if_neg fun both => both.2 none]
      rfl
    · rw [if_neg none, if_pos ⟨by omega, none⟩]
      unfold bmapEntry
      simp only [Bool.and_false, Bool.false_eq_true, if_false]
      rfl
  · rw [if_neg small, if_neg fun both => small (by omega)]
    rfl

theorem run_readLoop (x : Inode) (pos toRead n done : Nat) (out : List UInt8) (fuel : toRead - done ≤ n) :
    ∃ d ≤ toRead - done, (readLoop x pos toRead n done out).run s =
        some (out ++ (List.range d).map (fun j => byteAt s.dev.block x ((pos + done + j) % 2 ^ 32)), s) ∧
      (∀ j < d, fileBlock s.dev.block x ((pos + done + j) % 2 ^ 32 / 4096) ≠ 0) ∧
      (d < toRead - done → fileBlock s.dev.block x ((pos + done + d) % 2 ^ 32 / 4096) = 0) := by
  induction n generalizing done out with
  | zero => exact ⟨0, by omega, by simp [readLoop], by omega, by omega⟩
  | succ n ih =>
      unfold readLoop
      split
      · exact ⟨0, by omega, by simp, by omega, by omega⟩
      next more =>
      rw [run_bind_some (run_bmapRead _ _)]
      simp only [ofNat_fileBlock_eq_zero, toNat_ofNat_fileBlock]
      split
      · next hole => exact ⟨0, by omega, by simp, by omega, fun _ => hole⟩
      next present =>
      rw [run_bind_some (run_cacheGet s _), run_bind_some (run_load s _)]
      obtain ⟨chunk, hchunk⟩ : ∃ c, c = min (4096 - (pos + done) % 2 ^ 32 % 4096) (toRead - done) := ⟨_, rfl⟩
      rw [← hchunk, read_eq_bytes (by omega) present]
      obtain ⟨d, bound, run, solid, stop⟩ := ih (done + chunk)
        (out ++ (List.range chunk).map fun j => byteAt s.dev.block x ((pos + done + j) % 2 ^ 32)) (by omega)
      refine ⟨chunk + d, by omega, ?_, ?_, ?_⟩
      · rw [run, List.range_add, List.map_append, List.map_map, List.append_assoc]
        simp only [Function.comp_def, Nat.add_assoc]
      · intro j hj
        by_cases first : j < chunk
        · rwa [show (pos + done + j) % 2 ^ 32 / 4096 = (pos + done) % 2 ^ 32 / 4096 by omega]
        · have := solid (j - chunk) (by omega)
          rwa [show pos + (done + chunk) + (j - chunk) = pos + done + j by omega] at this
      · intro less
        have := stop (by omega)
        rwa [show pos + (done + chunk) + d = pos + done + (chunk + d) by omega] at this

/-- What a call on a descriptor that may be read should do: `bytes` is what it copies, `pos'` is the position after it. -/
structure ReadsWithin (data : Nat → Block) (x : Inode) (pos n : Nat) (r : Int) (bytes : List UInt8) (pos' : Nat) : Prop where
  count : bytes.length ≤ min n (x.size.toNat - pos)
  stored : ∀ j < bytes.length, pos + j < x.size.toNat ∧ bytes.getD j 0 = byteAt data x (pos + j)
  returned : r = bytes.length
  advanced : pos' = pos + bytes.length

/-- What a call does on a descriptor that may be read: `d` bytes, up to the end of the request or the first hole. -/
structure ReadRun (s : FsState Disk) (fd : Int) (x : Inode) (n d : Nat) (t : FsState Disk) : Prop where
  run : (swiftfs2Read fd n).run s =
    some (((d : Int), (List.range d).map fun j => byteAt s.dev.block x (((s.fds fd.toNat).pos + j) % 2 ^ 32)), t)
  pos : (t.fds fd.toNat).pos = ((s.fds fd.toNat).pos + d) % 2 ^ 32
  solid : ∀ j < d, fileBlock s.dev.block x (((s.fds fd.toNat).pos + j) % 2 ^ 32 / 4096) ≠ 0
  stop : ∃ toRead, toRead = (if x.size.toNat < ((s.fds fd.toNat).pos + n) % 2 ^ 32 then (x.size.toNat - (s.fds fd.toNat).pos) % 2 ^ 32 else n) ∧
    d ≤ toRead ∧ (d < toRead → fileBlock s.dev.block x (((s.fds fd.toNat).pos + d) % 2 ^ 32 / 4096) = 0)

theorem readRun {fd : Int} (n : Nat) (opened : fdOpen s.fds fd = true) (readable : (s.fds fd.toNat).flags ≠ oWronly)
    (inode : (inodeRead (s.fds fd.toNat).inode).run s = some (x, s)) (inside : (s.fds fd.toNat).pos < x.size.toNat) :
    ∃ d t, ReadRun s fd x n d t := by
  obtain ⟨toRead, length⟩ : ∃ m, m = (if x.size.toNat < ((s.fds fd.toNat).pos + n) % 2 ^ 32 then
    (x.size.toNat - (s.fds fd.toNat).pos) % 2 ^ 32 else n) := ⟨_, rfl⟩
  obtain ⟨d, bound, run, solid, stop⟩ := run_readLoop (s := s) x (s.fds fd.toNat).pos toRead toRead 0 [] (by omega)
  simp only [Nat.add_zero, List.nil_append, Nat.sub_zero] at bound run solid stop
  refine ⟨d, setPos fd.toNat (((s.fds fd.toNat).pos + d) % 2 ^ 32) s, ?_, ?_, solid, toRead, length, bound, stop⟩
  · unfold swiftfs2Read
    rw [run_bind_some (x := get) (s := s) rfl, opened, if_neg (by decide)]
    dsimp only
    rw [if_neg readable, run_bind_some inode, if_neg (by omega), ← length, run_bind_some run, List.length_map, List.length_range]
    rfl
  · unfold setPos
    dsimp only
    rw [Function.update_self]

theorem ReadRun.no_wrap {fd : Int} {n d : Nat} {t : FsState Disk} (read : ReadRun s fd x n d t) (word : (s.fds fd.toNat).pos < 2 ^ 32) :
    d = 0 ∨ (s.fds fd.toNat).pos + d ≤ 1036 * 4096 := by
  by_contra both
  rw [not_or] at both
  have first := lt_of_fileBlock_ne (read.solid 0 (by omega))
  have last := lt_of_fileBlock_ne (read.solid (1036 * 4096 - (s.fds fd.toNat).pos) (by omega))
  omega

theorem ReadRun.within {fd : Int} {n d : Nat} {t : FsState Disk} (read : ReadRun s fd x n d t) (word : (s.fds fd.toNat).pos < 2 ^ 32)
    (count : d ≤ min n (x.size.toNat - (s.fds fd.toNat).pos)) (inside : (s.fds fd.toNat).pos < x.size.toNat) :
    ReadsWithin s.dev.block x (s.fds fd.toNat).pos n d
      ((List.range d).map fun j => byteAt s.dev.block x (((s.fds fd.toNat).pos + j) % 2 ^ 32)) (t.fds fd.toNat).pos where
  count := by rwa [List.length_map, List.length_range]
  stored := fun j small => by
    rw [List.length_map, List.length_range] at small
    have room := read.no_wrap word
    refine ⟨by omega, ?_⟩
    rw [List.getD_eq_getElem?_getD, List.getElem?_map, List.getElem?_range small, Option.map_some, Option.getD_some,
      Nat.mod_eq_of_lt (by omega)]
  returned := by rw [List.length_map, List.length_range]
  advanced := by
    have room := read.no_wrap word
    rw [read.pos, List.length_map, List.length_range, Nat.mod_eq_of_lt (by omega)]

/-- A read stays within the file if and only if it starts at its end, or the sum does not wrap around, or it meets a hole before it is
past the end. -/
theorem read_within_iff {fd : Int} (opened : fdOpen s.fds fd = true) (readable : (s.fds fd.toNat).flags ≠ oWronly)
    (word : (s.fds fd.toNat).pos < 2 ^ 32) (inode : (inodeRead (s.fds fd.toNat).inode).run s = some (x, s)) (n : UInt32) :
    ∃ r bytes t, (swiftfs2Read fd n.toNat).run s = some ((r, bytes), t) ∧
      (ReadsWithin s.dev.block x (s.fds fd.toNat).pos n.toNat r bytes (t.fds fd.toNat).pos ↔
        x.size.toNat ≤ (s.fds fd.toNat).pos ∨ (s.fds fd.toNat).pos + n.toNat < 2 ^ 32 ∨
        ∃ k, (s.fds fd.toNat).pos ≤ k ∧ k ≤ x.size.toNat ∧ fileBlock s.dev.block x (k / 4096) = 0) := by
  by_cases ended : x.size.toNat ≤ (s.fds fd.toNat).pos
  · refine ⟨0, [], s, ?_, iff_of_true ⟨by simp, by simp, rfl, rfl⟩ (.inl ended)⟩
    unfold swiftfs2Read
    rw [run_bind_some (x := get) (s := s) rfl, opened, if_neg (by decide)]
    dsimp only
    rw [if_neg readable, run_bind_some inode, if_pos ended]
    rfl
  have inside : (s.fds fd.toNat).pos < x.size.toNat := by omega
  obtain ⟨d, t, read⟩ := readRun n.toNat opened readable inode inside
  have room := read.no_wrap word
  have size := n.toNat_lt
  obtain ⟨toRead, length, bound, stop⟩ := read.stop
  refine ⟨_, _, t, read.run, fun within => ?_, fun fine => read.within word ?_ inside⟩
  · by_contra bad
    rw [not_or, not_or] at bad
    obtain ⟨-, wraps, mapped⟩ := bad
    have mapped (k : Nat) (lower : (s.fds fd.toNat).pos ≤ k) (upper : k ≤ x.size.toNat) : fileBlock s.dev.block x (k / 4096) ≠ 0 :=
      fun hole => mapped ⟨k, lower, upper, hole⟩
    have short := lt_of_fileBlock_ne (mapped x.size.toNat (by omega) (Nat.le_refl _))
    have count := within.count
    rw [List.length_map, List.length_range] at count
    rw [if_neg (by omega)] at length
    by_cases all : d < toRead
    · have hole := stop all
      rw [Nat.mod_eq_of_lt (by omega)] at hole
      exact mapped _ (by omega) (by omega) hole
    · omega
  · rcases fine with past | small | ⟨k, lower, upper, hole⟩
    · omega
    · rw [Nat.mod_eq_of_lt small] at length
      split at length
      · rw [Nat.mod_eq_of_lt (by omega)] at length
        omega
      · omega
    · have shortened : d ≤ n.toNat := by
        split at length
        · omega
        · omega
      refine le_min shortened ?_
      by_contra far
      have present := read.solid (k - (s.fds fd.toNat).pos) (by omega)
      rw [show (s.fds fd.toNat).pos + (k - (s.fds fd.toNat).pos) = k by omega, Nat.mod_eq_of_lt (by omega)] at present
      exact present hole

def twoByteInode : Inode := { rootInode 100 with mode := 0, size := 2 }

/-- Its inode is number 1, in block 5; descriptor 2 is behind the first byte. -/
def twoBytes : FsState Disk :=
  { FsState.boot ⟨fun b => if b = 5 then Bytes.zero.write (1 % 32 * 128) twoByteInode.encode else .zero⟩ fun _ => true with
    mounted := true
    sb := { Super.decode [] with groupDescCount := 1 }
    gd := fun _ => { Gd.decode [] with inodeTableBlock := 5 }
    fds := Function.update (fun _ => .zero) 2 ⟨1, 1, 0, false⟩ }

theorem twoBytes_inode : (inodeRead 1).run twoBytes = some (twoByteInode, twoBytes) := by
  have place : (inodeBlockAndOffset 1).run twoBytes = some ((5, 1 % 32 * 128), twoBytes) := rfl
  unfold inodeRead
  rw [run_bind_some place, run_bind_some (run_cacheGet twoBytes _), run_bind_some (run_load twoBytes _)]
  have same : Inode.decode ((twoBytes.dev.block 5).read (1 % 32 * 128) 106) = twoByteInode := decode_write_same _ _ _
  rw [same]
  rfl

theorem read_within_two : ∃ r bytes t, (swiftfs2Read 2 (1 : UInt32).toNat).run twoBytes = some ((r, bytes), t) ∧
    (ReadsWithin twoBytes.dev.block twoByteInode 1 (1 : UInt32).toNat r bytes (t.fds 2).pos ↔
      twoByteInode.size.toNat ≤ 1 ∨ 1 + (1 : UInt32).toNat < 2 ^ 32 ∨
      ∃ k, 1 ≤ k ∧ k ≤ twoByteInode.size.toNat ∧ fileBlock twoBytes.dev.block twoByteInode (k / 4096) = 0) :=
  @read_within_iff twoBytes twoByteInode 2 (by decide) (by decide) (by decide) twoBytes_inode 1

/-- A request for 4294967295 bytes is answered with more than the one byte that is left. -/
theorem read_past_end : ∃ r bytes t, (swiftfs2Read 2 4294967295).run twoBytes = some ((r, bytes), t) ∧ 1 < bytes.length ∧
    ¬ReadsWithin twoBytes.dev.block twoByteInode 1 4294967295 r bytes (t.fds 2).pos := by
  have opened : fdOpen twoBytes.fds 2 = true := by decide
  have readable : (twoBytes.fds (2 : Int).toNat).flags ≠ oWronly := by decide
  obtain ⟨d, t, read⟩ := @readRun twoBytes twoByteInode 2 4294967295 opened readable twoBytes_inode (by decide)
  have pos : (twoBytes.fds (2 : Int).toNat).pos = 1 := rfl
  have size : twoByteInode.size.toNat = 2 := rfl
  have first : fileBlock twoBytes.dev.block twoByteInode 0 ≠ 0 := by decide
  obtain ⟨toRead, length, bound, stop⟩ := read.stop
  rw [pos, size, if_neg (by decide)] at length
  have far : 1 < d := by
    by_contra near
    have hole := stop (by omega)
    rw [pos, show (1 + d) % 2 ^ 32 / 4096 = 0 by omega] at hole
    exact first hole
  refine ⟨_, _, t, read.run, by rwa [List.length_map, List.length_range], fun within => ?_⟩
  have count := within.count
  rw [List.length_map, List.length_range, size] at count
  omega

end SwiftBSD.Proof.Fs
