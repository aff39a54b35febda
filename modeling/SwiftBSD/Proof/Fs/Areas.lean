import SwiftBSD.Proof.Fs.Mount

namespace SwiftBSD.Proof.Fs
open Lib SwiftBSD.Fs

variable {G : Geometry} {sizeMb d n b : Nat} {img : Disk} {s t u : FsState Disk} {live : List UInt32}

def AreasApart (a c : Nat × Nat) : Prop := a.1 + a.2 ≤ c.1 ∨ c.1 + c.2 ≤ a.1

def groupAreas (G : Geometry) (g : Nat) : List (Nat × Nat) := [(G.bitmapBlock g, 1), (G.bitmapBlock g + 1, 128)]

/-- Superblock, descriptors, groups, journal, and the block `d` of the root directory. -/
def areas (G : Geometry) (d : Nat) : List (Nat × Nat) :=
  (0, 1) :: (1, G.gdBlocks) :: ((List.range G.nrGroups).flatMap (groupAreas G) ++ [(G.journalBlock, 8192), (d, 1)])

def bitmapBit (G : Geometry) (img : Disk) (b : Nat) : Bool := bitTest (img.block (G.bitmapBlock (b / 32768))) (b % 32768)

/-- Blocks are taken and given back; `live` has those that are taken. -/
inductive AllocRun (s : FsState Disk) : List UInt32 → FsState Disk → Prop
  | start : AllocRun s [] s
  | alloc {live : List UInt32} {t u : FsState Disk} {b : UInt32} (before : AllocRun s live t) (run : blockAlloc.run t = some (b, u)) :
      AllocRun s (if b = 0 then live else b :: live) u
  | free {live : List UInt32} {t u : FsState Disk} {b : UInt32} (before : AllocRun s live t) (owned : b ∈ live)
      (run : (blockFree b).run t = some ((), u)) : AllocRun s (live.erase b) u

structure LaidOut (G : Geometry) (d : Nat) (img : Disk) : Prop where
  root : Inode.decode ((img.block (G.bitmapBlock 0 + 1)).read 128 106) = rootInode d
  bits : ∀ g < G.nrGroups, G.usedBlocks g ≤ 32768 ∧ (G.isLast g = true → Geometry.journalStart G g + 8192 ≤ 32768)
  apart : (areas G d).Pairwise AreasApart
  below : ∀ a ∈ areas G d, a.1 + a.2 ≤ G.numBlocks
  marked : ∀ a ∈ areas G d, ∀ b, a.1 ≤ b → b < a.1 + a.2 → b / 32768 < G.nrGroups ∧ bitmapBit G img b = true
  tail : ∀ b, G.numBlocks ≤ b → b < 32768 * G.nrGroups → bitmapBit G img b = true
  alloc : ∀ heap s live t b u, swiftfs2Mount.run (FsState.boot img heap) = some (0, s) → AllocRun s live t →
    blockAlloc.run t = some (b, u) → b ≠ 0 → b.toNat < G.numBlocks ∧ ∀ a ∈ areas G d, b.toNat < a.1 ∨ a.1 + a.2 ≤ b.toNat

structure AllocInv (s : FsState Disk) (live : List UInt32) (t : FsState Disk) : Prop where
  rep : ∃ V, Rep t V ∧ V.groups = s.nrGroups ∧ ∀ b < 32768 * s.nrGroups, usedAt s b = true → V.used b = true
  live : ∀ b ∈ live, b.toNat < 32768 * s.nrGroups ∧ usedAt s b.toNat = false

theorem AllocInv.alloc {b : UInt32} (zero : usedAt s 0 = true) (inv : AllocInv s live t) (run : blockAlloc.run t = some (b, u)) :
    AllocInv s live u ∧ (b ≠ 0 → b.toNat < 32768 * s.nrGroups ∧ usedAt s b.toNat = false) := by
  obtain ⟨V, rep, groups, used⟩ := inv.rep
  have positive : 0 < s.nrGroups := by
    rw [← groups, ← rep.groups]
    exact rep.layout.positive
  obtain ⟨c, v, V', same, rep', alloc⟩ := runs_blockAlloc (used 0 (by omega) zero) t rep
  rw [run] at same
  cases same
  cases alloc with
  | none full => exact ⟨⟨⟨_, rep', groups, used⟩, inv.live⟩, fun nonzero => (nonzero rfl).elim⟩
  | some nonzero bound free count =>
      refine ⟨⟨⟨_, rep', groups, fun c small taken => ?_⟩, inv.live⟩, fun _ => ?_⟩
      · change Function.update V.used b.toNat true c = true
        rw [Function.update_apply]
        split
        · rfl
        · exact used c small taken
      · change b.toNat < 32768 * V.groups at bound
        rw [groups] at bound
        refine ⟨bound, ?_⟩
        by_contra taken
        rw [used _ bound (by simpa using taken)] at free
        cases free

theorem AllocInv.free {b : UInt32} (inv : AllocInv s live t) (owned : b ∈ live) (run : (blockFree b).run t = some ((), u)) :
    AllocInv s (live.erase b) u := by
  obtain ⟨V, rep, groups, used⟩ := inv.rep
  obtain ⟨_, v, V', same, rep', free⟩ := runs_blockFree b t rep
  rw [run] at same
  cases same
  refine ⟨?_, fun c member => inv.live c (List.mem_of_mem_erase member)⟩
  cases free with
  | kept => exact ⟨_, rep', groups, used⟩
  | given nonzero bound taken =>
      refine ⟨_, rep', groups, fun c small marked => ?_⟩
      change Function.update V.used b.toNat false c = true
      rw [Function.update_apply]
      split
      · next same =>
          rw [same, (inv.live b owned).2] at marked
          cases marked
      · exact used c small marked

theorem allocRun_inv (layout : Layout s) (zero : usedAt s 0 = true) (run : AllocRun s live t) : AllocInv s live t := by
  induction run with
  | start => exact ⟨⟨volOf s, rep_volOf layout, rfl, fun _ _ used => used⟩, fun b none => by cases none⟩
  | @alloc live t u b before run ih =>
      obtain ⟨inv, fresh⟩ := ih.alloc zero run
      split
      · exact inv
      · next nonzero => exact ⟨inv.rep, List.forall_mem_cons.mpr ⟨fresh nonzero, inv.live⟩⟩
  | free before owned run ih => exact ih.free owned run

/-- Blocks fill their groups, and there are no more groups than `int` arithmetic can place. -/
structure Whole (G : Geometry) : Prop where
  positive : 0 < G.nrGroups
  bound : G.nrGroups ≤ 65536
  blocks : G.numBlocks = 32768 * G.nrGroups
  journal : G.journalBlock + 8192 = G.numBlocks
  desc : G.gdBlocks = descBlocks G.nrGroups

theorem whole_iff : Whole (Geometry.ofMb sizeMb) ↔ 128 ∣ sizeMb ∧ 0 < sizeMb % 2 ^ 44 ∧ sizeMb % 2 ^ 44 ≤ 8388608 := by
  have blocks : (Geometry.ofMb sizeMb).numBlocks = (if sizeMb < 1 then 1 else sizeMb) * 1048576 % 2 ^ 64 / 4096 := rfl
  have groups : (Geometry.ofMb sizeMb).nrGroups = ((Geometry.ofMb sizeMb).numBlocks + 32767) / 32768 % 2 ^ 32 := rfl
  have journal : (Geometry.ofMb sizeMb).journalBlock = ((Geometry.ofMb sizeMb).numBlocks + 2 ^ 64 - 8192) % 2 ^ 64 := rfl
  constructor
  · rintro ⟨positive, bound, whole, -, -⟩
    by_cases zero : sizeMb < 1
    · rw [if_pos zero] at blocks
      omega
    · rw [if_neg zero] at blocks
      refine ⟨?_, by omega, by omega⟩
      omega
  · rintro ⟨⟨q, rfl⟩, positive, bound⟩
    have some_ : ¬128 * q < 1 := by
      intro none
      obtain rfl : q = 0 := by omega
      exact absurd positive (by decide)
    rw [if_neg some_] at blocks
    exact ⟨by omega, by omega, by omega, by omega, rfl⟩

theorem Formatted.bit (formatted : Formatted G d img) (small : b < 32768 * G.nrGroups) :
    bitmapBit G img b = decide (Geometry.Marked G (b / 32768) (b % 32768) ∨ b = d) := by
  have split : b / 32768 * 32768 + b % 32768 = b := by omega
  unfold bitmapBit
  rw [formatted.fine.bitmapBlock (by omega), formatted.bitmap _ (by omega) _ (by omega), split]

theorem mem_areas {a : Nat × Nat} : a ∈ areas G d ↔ a = (0, 1) ∨ a = (1, G.gdBlocks) ∨
    (∃ g < G.nrGroups, a = (G.bitmapBlock g, 1) ∨ a = (G.bitmapBlock g + 1, 128)) ∨ a = (G.journalBlock, 8192) ∨ a = (d, 1) := by
  unfold areas groupAreas
  simp only [List.mem_cons, List.mem_append, List.mem_flatMap, List.mem_range, List.not_mem_nil, or_false]

section Forward
variable (formatted : Formatted (Geometry.ofMb sizeMb) n img) (bound : (Geometry.ofMb sizeMb).nrGroups ≤ 65536)
  (laid : LaidOut (Geometry.ofMb sizeMb) d img)
include formatted bound laid

theorem LaidOut.root_eq : d = n := by
  have positive := formatted.fine.positive
  have inside := formatted.inside
  have block : inodeBlock (Geometry.ofMb sizeMb).nrGroups 1 = (Geometry.ofMb sizeMb).bitmapBlock 0 + 1 := by
    rw [formatted.fine.bitmapBlock positive]
    rfl
  have table := formatted.table 1 (by omega)
  rw [block, if_pos rfl] at table
  have root : rootInode d = rootInode n := laid.root.symm.trans table
  have direct : UInt32.ofNat d = UInt32.ofNat n := by
    have first := congrArg (fun x => x.direct 0) root
    unfold rootInode at first
    simpa using first
  have small := (laid.marked (d, 1) (mem_areas.mpr (by simp)) d (Nat.le_refl _) (by simp)).1
  have value := congrArg UInt32.toNat direct
  rw [UInt32.toNat_ofNat_of_lt' (by change d < 2 ^ 32; omega), UInt32.toNat_ofNat_of_lt' (by change n < 2 ^ 32; omega)] at value
  exact value

theorem LaidOut.whole : Whole (Geometry.ofMb sizeMb) := by
  obtain rfl := laid.root_eq formatted bound
  have positive := formatted.fine.positive
  have blocks : (Geometry.ofMb sizeMb).numBlocks < 2 ^ 52 := by
    change _ % 2 ^ 64 / 4096 < _
    omega
  have groups : (Geometry.ofMb sizeMb).nrGroups = ((Geometry.ofMb sizeMb).numBlocks + 32767) / 32768 % 2 ^ 32 := rfl
  have journal : (Geometry.ofMb sizeMb).journalBlock = ((Geometry.ofMb sizeMb).numBlocks + 2 ^ 64 - 8192) % 2 ^ 64 := rfl
  have last : (Geometry.ofMb sizeMb).isLast ((Geometry.ofMb sizeMb).nrGroups - 1) = true := by
    simp only [SwiftBSD.Fs.Geometry.isLast, beq_iff_eq]
    omega
  have used := (formatted.fine.usedBlocks_le ((Geometry.ofMb sizeMb).nrGroups - 1)).2
  have below := laid.below _ (mem_areas.mpr (.inr (.inr (.inr (.inl rfl)))))
  have end_ := (laid.marked _ (mem_areas.mpr (.inr (.inr (.inr (.inl rfl))))) ((Geometry.ofMb sizeMb).journalBlock + 8191) (Nat.le_add_right _ _)
    (by dsimp only; omega)).1
  have root := laid.below (d, 1) (mem_areas.mpr (.inr (.inr (.inr (.inr rfl)))))
  have tail := laid.tail (32768 * (Geometry.ofMb sizeMb).nrGroups - 1)
  have fits := formatted.journal _ last
  dsimp only at below root
  generalize Geometry.ofMb sizeMb = G at *
  have exact_ : G.journalBlock + 8192 = G.numBlocks := by omega
  refine ⟨positive, bound, ?_, exact_, formatted.fine.desc⟩
  by_contra partial_
  have set := tail (by omega) (by omega)
  rw [formatted.bit (by omega)] at set
  have start : Geometry.journalStart G (G.nrGroups - 1) = G.journalBlock - (G.nrGroups - 1) * 32768 := by
    unfold Geometry.journalStart SwiftBSD.Fs.Geometry.groupStart at fits ⊢
    omega
  rcases of_decide_eq_true set with (low | ⟨-, -, high⟩) | same
  · have offset : (32768 * G.nrGroups - 1) % 32768 = 32767 := by omega
    have group : (32768 * G.nrGroups - 1) / 32768 = G.nrGroups - 1 := by omega
    rw [offset, group] at low
    omega
  · have offset : (32768 * G.nrGroups - 1) % 32768 = 32767 := by omega
    have group : (32768 * G.nrGroups - 1) / 32768 = G.nrGroups - 1 := by omega
    rw [offset, group, start] at high
    omega
  · omega

end Forward

section Backward
variable (formatted : Formatted G d img) (whole : Whole G)
include formatted whole

theorem Whole.group {g : Nat} (small : g < G.nrGroups) :
    g * 32768 ≤ G.bitmapBlock g ∧ G.bitmapBlock g + 129 = g * 32768 + G.usedBlocks g ∧ G.usedBlocks g ≤ 1154 := by
  have bound := whole.bound
  have used := (formatted.fine.usedBlocks_le g).2
  refine ⟨?_, ?_, used⟩
  · unfold SwiftBSD.Fs.Geometry.bitmapBlock SwiftBSD.Fs.Geometry.groupStart
    split <;> omega
  · unfold SwiftBSD.Fs.Geometry.bitmapBlock SwiftBSD.Fs.Geometry.usedBlocks SwiftBSD.Fs.Geometry.groupStart
    split <;> omega

omit formatted in
theorem Whole.journalStart {g : Nat} (last : G.isLast g = true) : g + 1 = G.nrGroups ∧ Geometry.journalStart G g = 24576 := by
  have same : g + 1 = G.nrGroups := by simpa [SwiftBSD.Fs.Geometry.isLast] using last
  have bound := whole.bound
  have blocks := whole.blocks
  have journal := whole.journal
  refine ⟨same, ?_⟩
  unfold Geometry.journalStart SwiftBSD.Fs.Geometry.groupStart
  omega

theorem Whole.root {g : Nat} (small : g < G.nrGroups) : d + 1 ≤ G.bitmapBlock g ∨ G.bitmapBlock g + 129 ≤ d := by
  have group := whole.group formatted small
  have fresh := formatted.fresh
  by_contra inside
  apply fresh
  have here : d / 32768 = g := by omega
  rw [here]
  exact .inl (by omega)

theorem Whole.root_low : 130 + G.gdBlocks ≤ d := by
  have notMeta := Geometry.not_meta formatted.fine formatted.fresh
  have desc := whole.desc
  unfold Meta at notMeta
  omega

theorem Whole.root_journal : d < G.journalBlock := by
  have inside := formatted.inside
  have blocks := whole.blocks
  have journal := whole.journal
  by_contra high
  apply formatted.fresh
  have group : d / 32768 + 1 = G.nrGroups := by omega
  have last : G.isLast (d / 32768) = true := by simpa [SwiftBSD.Fs.Geometry.isLast] using group
  have start := (whole.journalStart last).2
  exact .inr ⟨last, by omega, by omega⟩

theorem Whole.areas_apart : (areas G d).Pairwise AreasApart := by
  have low := whole.root_low formatted
  have high := whole.root_journal formatted
  have blocks := whole.blocks
  have positive := whole.positive
  have journal := whole.journal
  have first (g : Nat) (small : g < G.nrGroups) : 1 + G.gdBlocks ≤ G.bitmapBlock g := by
    have := (whole.group formatted small).1
    have few := descBlocks_le formatted.fine.bound
    rw [← whole.desc] at few
    by_cases zero : g = 0
    · rw [zero]
      exact Nat.le_refl _
    · omega
  have before (g : Nat) (small : g < G.nrGroups) : G.bitmapBlock g + 129 ≤ G.journalBlock := by
    have := whole.group formatted small
    omega
  -- everything but the superblock and the descriptors
  have rest : ∀ a ∈ (List.range G.nrGroups).flatMap (groupAreas G) ++ [(G.journalBlock, 8192), (d, 1)], 1 + G.gdBlocks ≤ a.1 := by
    intro a member
    rcases List.mem_append.mp member with group | last
    · obtain ⟨g, range, here⟩ := List.mem_flatMap.mp group
      have := first g (List.mem_range.mp range)
      unfold groupAreas at here
      simp only [List.mem_cons, List.not_mem_nil, or_false] at here
      rcases here with rfl | rfl
      · exact this
      · exact this.trans (Nat.le_succ _)
    · simp only [List.mem_cons, List.not_mem_nil, or_false] at last
      rcases last with rfl | rfl
      · dsimp only
        omega
      · dsimp only
        omega
  unfold areas
  refine List.pairwise_cons.mpr ⟨List.forall_mem_cons.mpr ⟨.inl (Nat.le_refl _), fun a member => .inl ?_⟩,
    List.pairwise_cons.mpr ⟨fun a member => .inl (rest a member), List.pairwise_append.mpr ⟨?_, ?_, ?_⟩⟩⟩
  · have := rest a member
    dsimp only
    omega
  · refine List.pairwise_flatMap.mpr ⟨fun g _ => ?_, ?_⟩
    · exact List.pairwise_cons.mpr ⟨List.forall_mem_singleton.mpr (.inl (Nat.le_refl _)), List.pairwise_singleton _ _⟩
    · refine (List.pairwise_lt_range).imp_of_mem fun {g h} mg mh less => ?_
      have one := whole.group formatted (List.mem_range.mp mg)
      have two := whole.group formatted (List.mem_range.mp mh)
      intro a ma c mc
      unfold groupAreas at ma mc
      simp only [List.mem_cons, List.not_mem_nil, or_false] at ma mc
      unfold AreasApart
      rcases ma with rfl | rfl <;> rcases mc with rfl | rfl <;> dsimp only <;> omega
  · refine List.pairwise_cons.mpr ⟨List.forall_mem_singleton.mpr (.inr ?_), List.pairwise_singleton _ _⟩
    dsimp only
    omega
  · intro a member c last
    obtain ⟨g, range, here⟩ := List.mem_flatMap.mp member
    have small := List.mem_range.mp range
    have root := whole.root formatted small
    have end_ := before g small
    unfold groupAreas at here
    simp only [List.mem_cons, List.not_mem_nil, or_false] at here last
    unfold AreasApart
    rcases here with rfl | rfl <;> rcases last with rfl | rfl <;> dsimp only <;> omega

theorem Whole.area_marked {a : Nat × Nat} (member : a ∈ areas G d) (lower : a.1 ≤ b) (upper : b < a.1 + a.2) :
    b < 32768 * G.nrGroups ∧ (Geometry.Marked G (b / 32768) (b % 32768) ∨ b = d) := by
  have positive := whole.positive
  have blocks := whole.blocks
  have journal := whole.journal
  have few := descBlocks_le formatted.fine.bound
  rw [← whole.desc] at few
  have used : G.usedBlocks 0 = 130 + G.gdBlocks := by
    unfold SwiftBSD.Fs.Geometry.usedBlocks
    rw [if_pos rfl]
    omega
  have early (small : b < 130 + G.gdBlocks) : b < 32768 * G.nrGroups ∧ (Geometry.Marked G (b / 32768) (b % 32768) ∨ b = d) := by
    have group : b / 32768 = 0 := by omega
    refine ⟨by omega, .inl (.inl ?_)⟩
    rw [group, used]
    omega
  have inGroup {g : Nat} (small : g < G.nrGroups) (from_ : G.bitmapBlock g ≤ b) (before : b < G.bitmapBlock g + 129) :
      b < 32768 * G.nrGroups ∧ (Geometry.Marked G (b / 32768) (b % 32768) ∨ b = d) := by
    have group := whole.group formatted small
    have here : b / 32768 = g := by omega
    refine ⟨by omega, .inl (.inl ?_)⟩
    rw [here]
    omega
  rcases mem_areas.mp member with rfl | rfl | ⟨g, small, rfl | rfl⟩ | rfl | rfl
  · exact early (by dsimp only at upper; omega)
  · exact early (by dsimp only at upper; omega)
  · exact inGroup small lower (by dsimp only at upper; omega)
  · exact inGroup small (by dsimp only at lower; omega) (by dsimp only at upper; omega)
  · dsimp only at lower upper
    have group : b / 32768 + 1 = G.nrGroups := by omega
    have last : G.isLast (b / 32768) = true := by simpa [SwiftBSD.Fs.Geometry.isLast] using group
    have start := (whole.journalStart last).2
    exact ⟨by omega, .inl (.inr ⟨last, by omega, by omega⟩)⟩
  · dsimp only at lower upper
    have inside := formatted.inside
    exact ⟨by omega, .inr (by omega)⟩

end Backward

theorem Whole.laidOut (formatted : Formatted (Geometry.ofMb sizeMb) d img) (whole : Whole (Geometry.ofMb sizeMb)) :
    LaidOut (Geometry.ofMb sizeMb) d img := by
  have positive := formatted.fine.positive
  have marks {a : Nat × Nat} (member : a ∈ areas (Geometry.ofMb sizeMb) d) {b : Nat} (lower : a.1 ≤ b) (upper : b < a.1 + a.2) :=
    whole.area_marked formatted member lower upper
  refine ⟨?_, fun g small => ?_, whole.areas_apart formatted, fun a member => ?_, fun a member b lower upper => ?_, fun b lower upper => ?_,
    fun heap s live t b u mount history run nonzero => ?_⟩
  · have block : inodeBlock (Geometry.ofMb sizeMb).nrGroups 1 = (Geometry.ofMb sizeMb).bitmapBlock 0 + 1 := by
      rw [formatted.fine.bitmapBlock positive]
      rfl
    have table := formatted.table 1 (by omega)
    rw [block, if_pos rfl] at table
    exact table
  · refine ⟨(whole.group formatted small).2.2.trans (by decide), fun last => ?_⟩
    rw [(whole.journalStart last).2]
  · -- the last block of the area
    rw [whole.blocks]
    by_contra beyond
    have nonempty : 0 < a.2 := by
      rcases mem_areas.mp member with rfl | rfl | ⟨g, small, rfl | rfl⟩ | rfl | rfl
      · exact Nat.one_pos
      · have desc := whole.desc
        unfold descBlocks at desc
        dsimp only
        omega
      · exact Nat.one_pos
      · exact Nat.succ_pos _
      · exact Nat.succ_pos _
      · exact Nat.one_pos
    have := (marks member (Nat.le_sub_one_of_lt (Nat.lt_add_of_pos_right nonempty)) (by omega)).1
    omega
  · obtain ⟨small, set⟩ := marks member lower upper
    refine ⟨by omega, ?_⟩
    rw [formatted.bit small]
    exact decide_eq_true set
  · rw [whole.blocks] at lower
    omega
  · have booted := (formatted.booted whole.bound mount).1
    have layout := booted.layout
    have groups := booted.groups
    have zero : usedAt s 0 = true := by
      rw [booted.used 0 (by omega)]
      refine decide_eq_true (.inl (.inl ?_))
      have := (formatted.fine.usedBlocks_le 0).1
      change 0 < (Geometry.ofMb sizeMb).usedBlocks 0
      omega
    obtain ⟨small, free⟩ := ((allocRun_inv layout zero history).alloc zero run).2 nonzero
    rw [groups] at small
    rw [booted.used _ small] at free
    refine ⟨by rw [whole.blocks]; exact small, fun a member => ?_⟩
    by_contra inside
    have set := (marks member (show a.1 ≤ b.toNat by omega) (by omega)).2
    rw [decide_eq_true set] at free
    cases free

section Several
variable {i : Nat} {bm : Block} {img₀ : Disk} (prepared : Prepared (Geometry.ofMb sizeMb) img₀) (several : 1 < (Geometry.ofMb sizeMb).nrGroups)
  (bound : (Geometry.ofMb sizeMb).nrGroups ≤ 65536)
  (bits : (Geometry.ofMb sizeMb).bitmap ((Geometry.ofMb sizeMb).nrGroups - 1) = some bm)
  (free : (Geometry.ofMb sizeMb).findFree bm = some (0, i))
include prepared several bound bits free

theorem Prepared.root_129 (journal : 256 ≤ Geometry.journalStart (Geometry.ofMb sizeMb) ((Geometry.ofMb sizeMb).nrGroups - 1)) :
    i = 129 ∧ bitTest bm 130 = false := by
  obtain ⟨-, -, fresh, before⟩ := prepared.findFree bits free
  have used : (Geometry.ofMb sizeMb).usedBlocks ((Geometry.ofMb sizeMb).nrGroups - 1) = 129 := by
    unfold SwiftBSD.Fs.Geometry.usedBlocks
    rw [if_neg (by omega)]
  have clear {k : Nat} (lower : 129 ≤ k) (upper : k < 256) : ¬Geometry.Marked (Geometry.ofMb sizeMb) ((Geometry.ofMb sizeMb).nrGroups - 1) k := by
    rintro (low | ⟨-, high, -⟩)
    · omega
    · omega
  have least : ¬i < 129 := fun less => fresh (.inl (by omega))
  have most : ¬129 < i := fun more => clear (Nat.le_refl _) (by decide) (before 129 more)
  refine ⟨by omega, ?_⟩
  rw [(Geometry.bitmap_bits prepared.fine bits).1]
  exact decide_eq_false (clear (by decide) (by decide))

omit bits in
theorem Prepared.root_bitmap (root : i = 129) (clear : bitTest bm 130 = false) :
    ∃ b, 1 ≤ b ∧ b < 130 + (Geometry.ofMb sizeMb).gdBlocks ∧
      bitmapBit (Geometry.ofMb sizeMb) ((Geometry.ofMb sizeMb).writeRoot 0 i bm img₀) b = false := by
  subst root
  have positive := prepared.fine.positive
  have desc := prepared.fine.desc
  have few := descBlocks_le prepared.fine.bound
  have table : ((Geometry.ofMb sizeMb).gd 0).inodeTableBlock.toNat = (Geometry.ofMb sizeMb).gdBlocks + 2 := by
    simp only [SwiftBSD.Fs.Geometry.gd, positive, if_true, UInt32.toNat_ofNat', SwiftBSD.Fs.Geometry.bitmapBlock]
    omega
  have bitmap : (Geometry.ofMb sizeMb).bitmapBlock 0 = 1 + (Geometry.ofMb sizeMb).gdBlocks := if_pos rfl
  have data : (SwiftBSD.Fs.Geometry.groupStart 0 + 129) % 2 ^ 32 = 129 := by decide
  unfold bitmapBit SwiftBSD.Fs.Geometry.writeRoot
  rw [data, table]
  dsimp only
  have some_ : 0 < (Geometry.ofMb sizeMb).gdBlocks := by
    rw [desc]
    unfold descBlocks
    omega
  by_cases hit : (Geometry.ofMb sizeMb).gdBlocks = 128
  · -- the root directory has been written over the bitmap
    refine ⟨256, by decide, by omega, ?_⟩
    have group : 256 / 32768 = 0 := by decide
    rw [group, bitmap, block_set_of_ne _ _ (by omega)]
    have same : 1 + (Geometry.ofMb sizeMb).gdBlocks = 129 := by omega
    rw [same, block_set_self]
    decide
  · refine ⟨130, by decide, by omega, ?_⟩
    have group : 130 / 32768 = 0 := by decide
    rw [group, bitmap, block_set_of_ne _ _ (by omega), block_set_of_ne _ _ (by omega), block_set_of_ne _ _ (by omega), block_set_self,
      bitTest_bitSet _ (by decide), clear]
    decide

theorem not_laidOut_several : ¬LaidOut (Geometry.ofMb sizeMb) d ((Geometry.ofMb sizeMb).writeRoot 0 i bm img₀) := by
  intro laid
  have blocks : (Geometry.ofMb sizeMb).numBlocks = (if sizeMb < 1 then 1 else sizeMb) * 1048576 % 2 ^ 64 / 4096 := rfl
  have groups : (Geometry.ofMb sizeMb).nrGroups = ((Geometry.ofMb sizeMb).numBlocks + 32767) / 32768 % 2 ^ 32 := rfl
  have journal : (Geometry.ofMb sizeMb).journalBlock = ((Geometry.ofMb sizeMb).numBlocks + 2 ^ 64 - 8192) % 2 ^ 64 := rfl
  have below := laid.below _ (mem_areas.mpr (.inr (.inr (.inr (.inl rfl)))))
  have end_ := (laid.marked _ (mem_areas.mpr (.inr (.inr (.inr (.inl rfl))))) ((Geometry.ofMb sizeMb).journalBlock + 8191) (Nat.le_add_right _ _)
    (by dsimp only; omega)).1
  have last : (Geometry.ofMb sizeMb).isLast ((Geometry.ofMb sizeMb).nrGroups - 1) = true := by
    simp only [SwiftBSD.Fs.Geometry.isLast, beq_iff_eq]
    omega
  have fits := prepared.journal _ last
  dsimp only at below
  have start : SwiftBSD.Fs.Geometry.groupStart ((Geometry.ofMb sizeMb).nrGroups - 1) = ((Geometry.ofMb sizeMb).nrGroups - 1) * 32768 := by
    unfold SwiftBSD.Fs.Geometry.groupStart
    omega
  have place : Geometry.journalStart (Geometry.ofMb sizeMb) ((Geometry.ofMb sizeMb).nrGroups - 1) +
      ((Geometry.ofMb sizeMb).nrGroups - 1) * 32768 = (Geometry.ofMb sizeMb).journalBlock := by
    unfold Geometry.journalStart at fits ⊢
    rw [start] at fits ⊢
    omega
  by_cases inside : 256 ≤ Geometry.journalStart (Geometry.ofMb sizeMb) ((Geometry.ofMb sizeMb).nrGroups - 1)
  · obtain ⟨root, clear⟩ := prepared.root_129 several bound bits free inside
    obtain ⟨b, lower, upper, bit⟩ := prepared.root_bitmap several bound free root clear
    have first : (Geometry.ofMb sizeMb).bitmapBlock 0 = 1 + (Geometry.ofMb sizeMb).gdBlocks := if_pos rfl
    have area : ∃ a ∈ areas (Geometry.ofMb sizeMb) d, a.1 ≤ b ∧ b < a.1 + a.2 := by
      by_cases low : b < 1 + (Geometry.ofMb sizeMb).gdBlocks
      · exact ⟨_, mem_areas.mpr (.inr (.inl rfl)), lower, low⟩
      by_cases here : b = 1 + (Geometry.ofMb sizeMb).gdBlocks
      · exact ⟨_, mem_areas.mpr (.inr (.inr (.inl ⟨0, by omega, .inl rfl⟩))), by dsimp only; omega, by dsimp only; omega⟩
      · exact ⟨_, mem_areas.mpr (.inr (.inr (.inl ⟨0, by omega, .inr rfl⟩))), by dsimp only; omega, by dsimp only; omega⟩
    obtain ⟨a, member, from_, before⟩ := area
    have set := (laid.marked a member b from_ before).2
    rw [bit] at set
    cases set
  · -- the journal starts where the last group does
    have zero : (Geometry.ofMb sizeMb).journalBlock = ((Geometry.ofMb sizeMb).nrGroups - 1) * 32768 := by omega
    have bitmap : (Geometry.ofMb sizeMb).bitmapBlock ((Geometry.ofMb sizeMb).nrGroups - 1) = ((Geometry.ofMb sizeMb).nrGroups - 1) * 32768 := by
      unfold SwiftBSD.Fs.Geometry.bitmapBlock
      rw [if_neg (by omega), start]
    have apart := (List.pairwise_cons.mp (List.pairwise_cons.mp laid.apart).2).2
    have crossing := (List.pairwise_append.mp apart).2.2 ((Geometry.ofMb sizeMb).bitmapBlock ((Geometry.ofMb sizeMb).nrGroups - 1), 1)
      (List.mem_flatMap.mpr ⟨_, List.mem_range.mpr (by omega), List.mem_cons_self⟩) ((Geometry.ofMb sizeMb).journalBlock, 8192) List.mem_cons_self
    unfold AreasApart at crossing
    dsimp only at crossing
    omega

end Several

/-- The layout is right for one whole group of 128 MB only. -/
theorem laidOut_iff (sizeMb : Nat) : (∃ img d, mkfs sizeMb = some img ∧ LaidOut (Geometry.ofMb sizeMb) d img) ↔ sizeMb % 2 ^ 44 = 128 := by
  have blocks : (Geometry.ofMb sizeMb).numBlocks = (if sizeMb < 1 then 1 else sizeMb) * 1048576 % 2 ^ 64 / 4096 := rfl
  have groups : (Geometry.ofMb sizeMb).nrGroups = ((Geometry.ofMb sizeMb).numBlocks + 32767) / 32768 % 2 ^ 32 := rfl
  constructor
  · rintro ⟨img, d, made, laid⟩
    obtain ⟨bound, img₀, bm, i, prepared, bits, free, rfl⟩ := mkfs_root made
    by_cases several : 1 < (Geometry.ofMb sizeMb).nrGroups
    · exact (not_laidOut_several prepared several bound bits free laid).elim
    · have positive := prepared.fine.positive
      obtain ⟨n, formatted⟩ := mkfs_formatted (by omega) made
      have whole := laid.whole formatted bound
      have right := whole_iff.mp whole
      have exact_ := whole.blocks
      split at blocks <;> omega
  · intro size
    have whole : Whole (Geometry.ofMb sizeMb) := whole_iff.mpr ⟨by omega, by omega, by omega⟩
    have exact_ := whole.blocks
    obtain ⟨img, made⟩ := mkfs_isSome whole.positive whole.bound fun g last => by
      rw [(whole.journalStart last).2]
    obtain ⟨d, formatted⟩ := mkfs_formatted (by split at blocks <;> omega) made
    exact ⟨img, d, made, whole.laidOut formatted⟩

/-- A disk of 64 MB: its image is made, and a block behind its end is free. -/
theorem areas_64 : ∃ img b, mkfs 64 = some img ∧ (Geometry.ofMb 64).numBlocks = 16384 ∧ 16384 ≤ b ∧
    b < 32768 * (Geometry.ofMb 64).nrGroups ∧ bitmapBit (Geometry.ofMb 64) img b = false ∧
    ¬∃ img d, mkfs 64 = some img ∧ LaidOut (Geometry.ofMb 64) d img := by
  have groups : (Geometry.ofMb 64).nrGroups = 1 := by decide
  have start : Geometry.journalStart (Geometry.ofMb 64) 0 = 8192 := by decide
  have used : (Geometry.ofMb 64).usedBlocks 0 = 131 := by decide
  have never : ¬∃ img d, mkfs 64 = some img ∧ LaidOut (Geometry.ofMb 64) d img := by
    rintro ⟨img, d, made, laid⟩
    obtain ⟨n, formatted⟩ := mkfs_formatted groups made
    have blocks := (laid.whole formatted (by decide)).blocks
    exact absurd blocks (by decide)
  obtain ⟨img, made⟩ := mkfs_isSome (show 0 < (Geometry.ofMb 64).nrGroups by decide) (by decide) fun g last => by
    have one : g = 0 := by
      simp only [SwiftBSD.Fs.Geometry.isLast, groups, beq_iff_eq] at last
      omega
    rw [one, start]
    decide
  obtain ⟨d, formatted⟩ := mkfs_formatted groups made
  -- one of two blocks is not the root directory
  obtain ⟨b, lower, upper, other⟩ : ∃ b, 16384 ≤ b ∧ b ≤ 16385 ∧ b ≠ d := by
    by_cases here : d = 16384
    · exact ⟨16385, by omega, by omega, by omega⟩
    · exact ⟨16384, by omega, by omega, fun same => here same.symm⟩
  have small : b < 32768 * (Geometry.ofMb 64).nrGroups := by omega
  refine ⟨img, b, made, by decide, lower, small, ?_, never⟩
  have group : b / 32768 = 0 := by omega
  rw [formatted.bit small, group]
  refine decide_eq_false ?_
  unfold Geometry.Marked
  rw [used, start]
  omega

end SwiftBSD.Proof.Fs
