import SwiftBSD.Fs.Mkfs
import SwiftBSD.Proof.Fs.Calls

namespace SwiftBSD.Proof.Fs
open Lib SwiftBSD.Fs

theorem block_set_self (d : Disk) (b : Nat) (v : Block) : (d.set b v).block b = v := Function.update_self _ _ _

theorem block_set_of_ne (d : Disk) {b c : Nat} (v : Block) (h : c ≠ b) : (d.set b v).block c = d.block c :=
  Function.update_of_ne h _ _

theorem bitmapSetRange_some {start n : Nat} {bm bm' : Block} (small : start < 2 ^ 32) (few : n ≤ 32768)
    (h : bitmapSetRange start n bm = some bm') :
    (0 < n → start + n ≤ 32768) ∧
      ∀ b, bitTest bm' b = (bitTest bm b || decide (start ≤ b ∧ b < start + n)) := by
  induction n generalizing bm' with
  | zero =>
      obtain rfl : bm = bm' := by simpa [bitmapSetRange] using h
      refine ⟨fun h => by omega, fun b => ?_⟩
      simp
  | succ n ih =>
      obtain ⟨mid, first, rest⟩ := Option.bind_eq_some_iff.mp h
      obtain ⟨inside, bits⟩ := ih (by omega) first
      dsimp only at rest
      split at rest
      · next fits =>
          have bit : (start + n) % 2 ^ 32 = start + n := by
            rcases Nat.eq_zero_or_pos n with rfl | positive
            · omega
            · have := inside positive
              omega
          rw [bit] at fits rest
          obtain rfl := Option.some.inj rest
          refine ⟨fun _ => by omega, fun b => ?_⟩
          rw [bitTest_bitSet mid (by omega), bits b, Bool.or_assoc, ← Bool.decide_or]
          congr 2
          exact propext ⟨fun h => by omega, fun h => by omega⟩
      · cases rest

theorem bitmapSetRange_isSome {start n : Nat} (bm : Block) (fits : start + n ≤ 32768) :
    ∃ bm', bitmapSetRange start n bm = some bm' := by
  induction n with
  | zero => exact ⟨bm, rfl⟩
  | succ n ih =>
      obtain ⟨mid, first⟩ := ih (by omega)
      have bit : (start + n) % 2 ^ 32 / 8 < 4096 := by omega
      refine ⟨bitSet mid ((start + n) % 2 ^ 32), ?_⟩
      simp only [bitmapSetRange, first, Option.bind_eq_bind, Option.bind_some, bit, if_true]

theorem bitTest_zero (b : Nat) : bitTest .zero b = false := by simp [bitTest]

namespace Geometry
open SwiftBSD.Fs.Geometry

variable {G : Geometry} {g d b : Nat} {bm : Block}

/-- Where the journal starts in the last group. -/
def journalStart (G : Geometry) (g : Nat) : Nat := (G.journalBlock + (2 ^ 32 - groupStart g)) % 2 ^ 32

/-- The bits `mkfs` sets in the bitmap of a group before it looks for the root block. -/
def Marked (G : Geometry) (g b : Nat) : Prop :=
  b < G.usedBlocks g ∨ (G.isLast g = true ∧ journalStart G g ≤ b ∧ b < journalStart G g + 8192)

instance : Decidable (Marked G g b) := by unfold Marked; infer_instance

structure Fine (G : Geometry) : Prop where
  positive : 0 < G.nrGroups
  bound : G.nrGroups ≤ 131072
  desc : G.gdBlocks = descBlocks G.nrGroups

theorem Fine.bitmapBlock (fine : Fine G) (hg : g < G.nrGroups) : G.bitmapBlock g = Fs.bitmapBlock G.nrGroups g := by
  have := fine.bound
  unfold SwiftBSD.Fs.Geometry.bitmapBlock Fs.bitmapBlock groupStart
  rw [fine.desc]
  split
  · rfl
  · omega

theorem Fine.usedBlocks_le (fine : Fine G) (g : Nat) : 129 ≤ G.usedBlocks g ∧ G.usedBlocks g ≤ 1154 := by
  have := descBlocks_le fine.bound
  unfold usedBlocks
  rw [fine.desc]
  split <;> omega

theorem bitmap_bits (fine : Fine G) (h : G.bitmap g = some bm) :
    (∀ b, bitTest bm b = decide (Marked G g b)) ∧ (G.isLast g = true → journalStart G g + 8192 ≤ 32768) := by
  have used := fine.usedBlocks_le g
  obtain ⟨first, hfirst, rest⟩ := Option.bind_eq_some_iff.mp h
  obtain ⟨-, bits⟩ := bitmapSetRange_some (by decide) (by omega) hfirst
  split at rest
  · next last =>
      obtain ⟨inside, bits'⟩ := bitmapSetRange_some (Nat.mod_lt _ (by decide)) (by decide) rest
      refine ⟨fun b => ?_, fun _ => inside (by decide)⟩
      rw [bits' b, bits b, bitTest_zero, Bool.false_or, ← Bool.decide_or, decide_eq_decide]
      simp [Marked, last, journalStart]
  · next last =>
      obtain rfl := Option.some.inj rest
      refine ⟨fun b => ?_, fun h => (last h).elim⟩
      rw [bits b, bitTest_zero, Bool.false_or, decide_eq_decide]
      simp [Marked, last]

theorem writeBitmaps_spec (fine : Fine G) {m : Nat} (hm : m ≤ G.nrGroups) {img img' : Disk}
    (h : G.writeBitmaps m img = some img') :
    (∀ g < m, G.bitmap g = some (img'.block (Fs.bitmapBlock G.nrGroups g))) ∧
      ∀ b, (∀ g < m, b ≠ Fs.bitmapBlock G.nrGroups g) → img'.block b = img.block b := by
  induction m generalizing img' with
  | zero =>
      obtain rfl : img = img' := by simpa [writeBitmaps] using h
      exact ⟨fun g hg => by omega, fun _ _ => rfl⟩
  | succ m ih =>
      obtain ⟨mid, first, rest⟩ := Option.bind_eq_some_iff.mp h
      obtain ⟨bm, hbm, set⟩ := Option.bind_eq_some_iff.mp rest
      obtain rfl := Option.some.inj set
      obtain ⟨bitmaps, others⟩ := ih (by omega) first
      rw [fine.bitmapBlock (by omega)]
      refine ⟨fun g hg => ?_, fun b away => ?_⟩
      · by_cases same : g = m
        · subst same
          rw [block_set_self, hbm]
        · have other : Fs.bitmapBlock G.nrGroups g ≠ Fs.bitmapBlock G.nrGroups m :=
            fun h => same (bitmapBlock_inj fine.bound h)
          rw [block_set_of_ne _ _ other]
          exact bitmaps g (by omega)
      · rw [block_set_of_ne _ _ (away m (by omega))]
        exact others b fun g hg => away g (by omega)

theorem writeGds_block (G : Geometry) (m b : Nat) (img : Disk) :
    (G.writeGds m img).block b = if 1 ≤ b ∧ b ≤ m then Gd.toBlock G.gd (b - 1) else img.block b := by
  induction m with
  | zero =>
      rw [if_neg (by omega)]
      rfl
  | succ m ih =>
      by_cases here : b = 1 + m
      · subst here
        rw [if_pos (by omega), writeGds, block_set_self]
        congr 1
        omega
      · rw [writeGds, block_set_of_ne _ _ here, ih]
        refine if_congr ?_ rfl rfl
        exact ⟨fun h => by omega, fun h => by omega⟩

end Geometry

def Geometry.gds (G : Geometry) : Nat → Gd :=
  Function.update G.gd 0 { G.gd 0 with freeInodesCount := (G.gd 0).freeInodesCount - 1 }

structure Formatted (G : Geometry) (d : Nat) (img : Disk) : Prop where
  fine : Geometry.Fine G
  super : img.block 0 = G.superblock.toBlock
  desc : ∀ k < G.gdBlocks, img.block (1 + k) = Gd.toBlock (Geometry.gds G) k
  bitmap : ∀ g < G.nrGroups, ∀ b < 32768, bitTest (img.block (bitmapBlock G.nrGroups g)) b =
    decide (Geometry.Marked G g b ∨ g * 32768 + b = d)
  journal : ∀ g, G.isLast g = true → Geometry.journalStart G g + 8192 ≤ 32768
  table : ∀ i < 4096 * G.nrGroups, Inode.decode ((img.block (inodeBlock G.nrGroups i)).read (i % 32 * 128) 106) =
    if i = 1 then rootInode d else .zero
  root : img.block d = rootDirBlock
  inside : d < 32768 * G.nrGroups
  fresh : ¬ Geometry.Marked G (d / 32768) (d % 32768)

theorem toBlock_write_zero (gd : Nat → Gd) (x : Gd) :
    (Gd.toBlock gd 0).write 0 x.encode = Gd.toBlock (Function.update gd 0 x) 0 := by
  apply Bytes.ext_get
  intro j hj
  have length := gd_length_encode x
  rw [Bytes.get_write]
  simp only [Gd.toBlock, Bytes.get, hj, dite_true, Nat.zero_mul, Nat.zero_add, Nat.zero_le, true_and, and_true,
    Nat.sub_zero, length]
  by_cases small : j < 32
  · have zero : j / 32 = 0 := by omega
    rw [if_pos small, zero, Function.update_self, Nat.mod_eq_of_lt small]
  · rw [if_neg small, Function.update_of_ne (by omega)]

theorem toBlock_update_zero (gd : Nat → Gd) (x : Gd) {k : Nat} (h : 0 < k) :
    Gd.toBlock (Function.update gd 0 x) k = Gd.toBlock gd k := by
  apply Bytes.ext_get
  intro j hj
  simp only [Gd.toBlock, Bytes.get, hj, dite_true]
  rw [Function.update_of_ne (by omega)]

theorem encode_zero : Inode.zero.encode = List.replicate 106 0 := by decide

theorem read_zero {n : Nat} (off len : Nat) : (Bytes.zero : Bytes n).read off len = List.replicate len 0 := by
  apply List.eq_replicate_iff.mpr
  refine ⟨Bytes.length_read _ _ _, fun v hv => ?_⟩
  obtain ⟨i, -, rfl⟩ := List.mem_map.mp hv
  exact Bytes.get_zero _

theorem decode_zero_read (off : Nat) : Inode.decode ((Bytes.zero : Block).read off 106) = .zero := by
  rw [read_zero, ← encode_zero, decode_encode]

/-- The image before the root directory is put on it. -/
structure Prepared (G : Geometry) (img : Disk) : Prop where
  fine : Geometry.Fine G
  super : img.block 0 = G.superblock.toBlock
  desc : ∀ k < G.gdBlocks, img.block (1 + k) = Gd.toBlock G.gd k
  bitmap : ∀ g < G.nrGroups, ∀ b, bitTest (img.block (bitmapBlock G.nrGroups g)) b = decide (Geometry.Marked G g b)
  journal : ∀ g, G.isLast g = true → Geometry.journalStart G g + 8192 ≤ 32768
  zero : ∀ b, descBlocks G.nrGroups < b → (∀ g < G.nrGroups, b ≠ bitmapBlock G.nrGroups g) → img.block b = .zero

theorem Geometry.prepared {G : Geometry} (fine : Geometry.Fine G) {img : Disk}
    (h : G.writeBitmaps G.nrGroups ⟨fun _ => .zero⟩ = some img) :
    Prepared G (G.writeGds G.gdBlocks (img.set 0 G.superblock.toBlock)) := by
  obtain ⟨bitmaps, others⟩ := Geometry.writeBitmaps_spec fine (Nat.le_refl _) h
  have desc := fine.desc
  have above (g : Nat) : descBlocks G.nrGroups < bitmapBlock G.nrGroups g := bitmapBlock_gt fine.bound g
  have high {b : Nat} (hb : descBlocks G.nrGroups < b) :
      (G.writeGds G.gdBlocks (img.set 0 G.superblock.toBlock)).block b = img.block b := by
    rw [Geometry.writeGds_block, if_neg (by omega), block_set_of_ne _ _ (by omega)]
  refine ⟨fine, ?_, ?_, ?_, ?_, ?_⟩
  · rw [Geometry.writeGds_block, if_neg (by omega), block_set_self]
  · intro k hk
    rw [Geometry.writeGds_block, if_pos (by omega), Nat.add_sub_cancel_left]
  · intro g hg b
    rw [high (above g)]
    exact (Geometry.bitmap_bits fine (bitmaps g hg)).1 b
  · intro g last
    have hg : g < G.nrGroups := by
      have : g + 1 = G.nrGroups := by simpa [SwiftBSD.Fs.Geometry.isLast] using last
      omega
    exact (Geometry.bitmap_bits fine (bitmaps g hg)).2 last
  · intro b hb away
    rw [high hb, others b away]

theorem Geometry.not_meta {G : Geometry} (fine : Geometry.Fine G) {d : Nat}
    (fresh : ¬ Geometry.Marked G (d / 32768) (d % 32768)) : ¬ Meta G.nrGroups d := by
  have desc := fine.desc
  simp only [Geometry.Marked, not_or, SwiftBSD.Fs.Geometry.usedBlocks] at fresh
  have first := fresh.1
  have few := descBlocks_le fine.bound
  unfold Meta
  split at first <;> omega

theorem Prepared.findFree {G : Geometry} {img : Disk} (prepared : Prepared G img) {bm : Block} {g i : Nat}
    (bits : G.bitmap (G.nrGroups - 1) = some bm) (h : G.findFree bm = some (g, i)) :
    g = 0 ∧ i < 32768 ∧ ¬ Geometry.Marked G (G.nrGroups - 1) i ∧ ∀ k < i, Geometry.Marked G (G.nrGroups - 1) k := by
  obtain ⟨n, positive⟩ : ∃ n, G.nrGroups = n + 1 := Nat.exists_eq_add_one.mpr prepared.fine.positive
  have marked := (Geometry.bitmap_bits prepared.fine bits).1
  unfold Geometry.findFree at h
  rw [positive] at h
  unfold firstSome at h
  cases first : firstFrom (fun i => !bitTest bm i) 0 32768 with
  | none =>
      obtain ⟨k, -, -, found⟩ := firstSome_some (by simpa [first] using h)
      cases found
  | some j =>
      rw [first] at h
      obtain ⟨rfl, rfl⟩ := Prod.mk.inj (Option.some.inj h)
      obtain ⟨-, small, clear, before⟩ := firstFrom_some first
      rw [marked] at clear
      refine ⟨rfl, by omega, by simpa using clear, fun k less => ?_⟩
      have set := before k (Nat.zero_le _) less
      rw [marked] at set
      simpa using set

theorem Prepared.writeRoot {G : Geometry} {img : Disk} (prepared : Prepared G img) {bm : Block} {g i : Nat}
    (marked : ∀ b, bitTest bm b = decide (Geometry.Marked G g b)) (hg : g < G.nrGroups)
    (hi : i < 32768) (fresh : ¬ Geometry.Marked G g i) : Formatted G (g * 32768 + i) (G.writeRoot g i bm img) := by
  have fine := prepared.fine
  have positive := fine.positive
  have bound := fine.bound
  have few := descBlocks_le bound
  have desc := fine.desc
  have some : 0 < descBlocks G.nrGroups := by unfold descBlocks; omega
  have quotient : (g * 32768 + i) / 32768 = g := by omega
  have rest : (g * 32768 + i) % 32768 = i := by omega
  have inside : g * 32768 + i < 32768 * G.nrGroups := by omega
  have fresh' : ¬ Geometry.Marked G ((g * 32768 + i) / 32768) ((g * 32768 + i) % 32768) := by rwa [quotient, rest]
  have data : (SwiftBSD.Fs.Geometry.groupStart g + i) % 2 ^ 32 = g * 32768 + i := by
    unfold SwiftBSD.Fs.Geometry.groupStart
    omega
  have table : (G.gd 0).inodeTableBlock.toNat = inodeBlock G.nrGroups 1 := by
    simp only [SwiftBSD.Fs.Geometry.gd, positive, if_true, UInt32.toNat_ofNat', fine.bitmapBlock positive, inodeBlock]
    unfold bitmapBlock
    simp
    omega
  have notMeta := Geometry.not_meta fine fresh'
  have dataBitmap {k : Nat} (hk : k < G.nrGroups) : bitmapBlock G.nrGroups k ≠ g * 32768 + i := fun h =>
    notMeta (h ▸ meta_bitmapBlock bound hk)
  have dataTable {k : Nat} (hk : k < 4096 * G.nrGroups) : inodeBlock G.nrGroups k ≠ g * 32768 + i := fun h =>
    notMeta (h ▸ meta_inodeBlock bound hk)
  have dataHigh : descBlocks G.nrGroups < g * 32768 + i := by
    unfold Meta at notMeta
    omega
  unfold SwiftBSD.Fs.Geometry.writeRoot
  simp only [data, table, fine.bitmapBlock hg]
  have bitmapHigh (k : Nat) := bitmapBlock_gt bound k
  have tableHigh (k : Nat) := inodeBlock_gt bound k
  have tableBitmap (j k : Nat) : inodeBlock G.nrGroups j ≠ bitmapBlock G.nrGroups k := inodeBlock_ne_bitmapBlock bound
  have first : (1 : Nat) ≠ bitmapBlock G.nrGroups g ∧ 1 ≠ inodeBlock G.nrGroups 1 ∧ 1 ≠ g * 32768 + i := by
    have := bitmapHigh g
    have := tableHigh 1
    omega
  constructor
  case fine => exact fine
  case super =>
    have := bitmapHigh g
    have := tableHigh 1
    rw [block_set_of_ne _ _ (by omega), block_set_of_ne _ _ (by omega), block_set_of_ne _ _ (by omega),
      block_set_of_ne _ _ (by omega)]
    exact prepared.super
  case desc =>
    intro k hk
    have := bitmapHigh g
    have := tableHigh 1
    by_cases zero : k = 0
    · subst zero
      rw [Nat.add_zero, block_set_self, block_set_of_ne _ _ first.2.2, block_set_of_ne _ _ first.2.1,
        block_set_of_ne _ _ first.1, prepared.desc 0 hk, toBlock_write_zero]
      rfl
    · rw [block_set_of_ne _ _ (by omega), block_set_of_ne _ _ (by omega), block_set_of_ne _ _ (by omega),
        block_set_of_ne _ _ (by omega), prepared.desc k hk]
      exact (toBlock_update_zero _ _ (by omega)).symm
  case bitmap =>
    intro k hk b hb
    have := bitmapHigh k
    rw [block_set_of_ne _ _ (by omega), block_set_of_ne _ _ (dataBitmap hk), block_set_of_ne _ _ (tableBitmap 1 k).symm]
    by_cases same : k = g
    · subst same
      rw [block_set_self, bitTest_bitSet _ hi, marked, ← Bool.decide_or, decide_eq_decide]
      refine or_congr_right ?_
      omega
    · rw [block_set_of_ne _ _ fun h => same (bitmapBlock_inj bound h), prepared.bitmap k hk, decide_eq_decide]
      refine (or_iff_left ?_).symm
      omega
  case journal => exact prepared.journal
  case table =>
    intro j hj
    have := tableHigh j
    have zero (k : Nat) : img.block (inodeBlock G.nrGroups k) = .zero :=
      prepared.zero _ (tableHigh k) fun g _ => tableBitmap k g
    rw [block_set_of_ne _ _ (by omega), block_set_of_ne _ _ (dataTable hj)]
    by_cases same : j / 32 = 0
    · have block : inodeBlock G.nrGroups j = inodeBlock G.nrGroups 1 := by
        have group : j / 4096 = 1 / 4096 := by omega
        have offset : j % 4096 / 32 = 1 % 4096 / 32 := by omega
        unfold inodeBlock
        rw [group, offset]
      rw [block, block_set_self, block_set_of_ne _ _ (tableBitmap 1 g), zero 1]
      have length := length_encode (rootInode (g * 32768 + i))
      by_cases root : j = 1
      · subst root
        have read := Bytes.read_write_same (.zero : Block) 128 (rootInode (g * 32768 + i)).encode (by omega)
        rw [length] at read
        rw [if_pos rfl, show 1 % 32 * 128 = 128 from rfl, read, decode_encode]
      · rw [if_neg root, Bytes.read_write_disjoint _ _ (by omega), decode_zero_read]
    · rw [block_set_of_ne _ _ fun h => same (by have := inodeBlock_inj bound h; omega),
        block_set_of_ne _ _ (tableBitmap j g), zero j, decode_zero_read, if_neg (by omega)]
  case root => rw [block_set_of_ne _ _ (by omega), block_set_self]
  case inside => exact inside
  case fresh => exact fresh'

theorem mkfs_root {sizeMb : Nat} {img : Disk} (h : mkfs sizeMb = some img) :
    (Geometry.ofMb sizeMb).nrGroups ≤ 65536 ∧ ∃ img₀ bm i, Prepared (Geometry.ofMb sizeMb) img₀ ∧
      (Geometry.ofMb sizeMb).bitmap ((Geometry.ofMb sizeMb).nrGroups - 1) = some bm ∧ (Geometry.ofMb sizeMb).findFree bm = some (0, i) ∧
      img = (Geometry.ofMb sizeMb).writeRoot 0 i bm img₀ := by
  set G := Geometry.ofMb sizeMb with hG
  unfold mkfs at h
  simp only [← hG, Option.bind_eq_bind] at h
  split at h
  · cases h
  next small =>
  refine ⟨by omega, ?_⟩
  obtain ⟨img₁, hbitmaps, h⟩ := Option.bind_eq_some_iff.mp h
  obtain ⟨bm, bits, h⟩ := Option.bind_eq_some_iff.mp h
  obtain ⟨⟨g, i⟩, hfree, h⟩ := Option.bind_eq_some_iff.mp h
  have positive : 0 < G.nrGroups := by
    obtain ⟨k, -, inside, -⟩ := firstSome_some hfree
    omega
  have prepared := Geometry.prepared ⟨positive, by omega, rfl⟩ hbitmaps
  obtain ⟨rfl, -⟩ := prepared.findFree bits hfree
  dsimp only at h
  split at h
  · cases h
  · obtain rfl := Option.some.inj h
    exact ⟨_, bm, i, prepared, bits, hfree, rfl⟩

theorem mkfs_formatted {sizeMb : Nat} {img : Disk} (one : (Geometry.ofMb sizeMb).nrGroups = 1) (h : mkfs sizeMb = some img) :
    ∃ d, Formatted (Geometry.ofMb sizeMb) d img := by
  obtain ⟨-, img₀, bm, i, prepared, bits, free, rfl⟩ := mkfs_root h
  obtain ⟨-, small, fresh, -⟩ := prepared.findFree bits free
  have marked := (Geometry.bitmap_bits prepared.fine bits).1
  rw [one] at fresh marked
  exact ⟨_, prepared.writeRoot marked prepared.fine.positive small fresh⟩

theorem Geometry.bitmap_isSome {G : Geometry} (fine : Geometry.Fine G) (g : Nat)
    (journal : G.isLast g = true → Geometry.journalStart G g + 8192 ≤ 32768) : ∃ bm, G.bitmap g = some bm := by
  have used := fine.usedBlocks_le g
  obtain ⟨first, hfirst⟩ := @bitmapSetRange_isSome 0 (G.usedBlocks g) .zero (by omega)
  unfold SwiftBSD.Fs.Geometry.bitmap
  simp only [hfirst, Option.bind_eq_bind, Option.bind_some]
  split
  · next last => exact bitmapSetRange_isSome first (journal last)
  · exact ⟨first, rfl⟩

theorem Geometry.writeBitmaps_isSome {G : Geometry} (fine : Geometry.Fine G) (img : Disk) (m : Nat)
    (journal : ∀ g, G.isLast g = true → Geometry.journalStart G g + 8192 ≤ 32768) :
    ∃ img', G.writeBitmaps m img = some img' := by
  induction m with
  | zero => exact ⟨img, rfl⟩
  | succ m ih =>
      obtain ⟨mid, first⟩ := ih
      obtain ⟨bm, hbm⟩ := Geometry.bitmap_isSome fine m (journal m)
      exact ⟨_, by simp only [SwiftBSD.Fs.Geometry.writeBitmaps, first, hbm, Option.bind_eq_bind, Option.bind_some]; rfl⟩

theorem Prepared.findFree_isSome {G : Geometry} {img : Disk} (prepared : Prepared G img) {bm : Block}
    (bits : G.bitmap (G.nrGroups - 1) = some bm) : ∃ pair, G.findFree bm = some pair := by
  have fine := prepared.fine
  have used := fine.usedBlocks_le (G.nrGroups - 1)
  have marked := (Geometry.bitmap_bits fine bits).1
  by_contra none
  have none := Option.eq_none_iff_forall_ne_some.mpr fun pair h => none ⟨pair, h⟩
  have first := firstSome_none none 0 (Nat.le_refl _) (by have := fine.positive; omega)
  have full := firstFrom_none.mp (Option.map_eq_none_iff.mp first)
  have bit (b : Nat) (hb : b < 32768) : Geometry.Marked G (G.nrGroups - 1) b := by
    have := full b (Nat.zero_le _) (by omega)
    rw [marked] at this
    simpa using this
  have low := bit 5000 (by decide)
  have high := bit 20000 (by decide)
  unfold Geometry.Marked at low high
  omega

theorem mkfs_isSome {sizeMb : Nat} (positive : 0 < (Geometry.ofMb sizeMb).nrGroups)
    (bound : (Geometry.ofMb sizeMb).nrGroups ≤ 65536)
    (journal : ∀ g, (Geometry.ofMb sizeMb).isLast g = true → Geometry.journalStart (Geometry.ofMb sizeMb) g + 8192 ≤ 32768) :
    ∃ img, mkfs sizeMb = some img := by
  have fine : Geometry.Fine (Geometry.ofMb sizeMb) := ⟨positive, by omega, rfl⟩
  unfold mkfs
  generalize Geometry.ofMb sizeMb = G at positive bound journal fine ⊢
  obtain ⟨img, bitmaps⟩ := Geometry.writeBitmaps_isSome fine ⟨fun _ => .zero⟩ G.nrGroups journal
  have prepared := Geometry.prepared fine bitmaps
  obtain ⟨bm, bits⟩ := Geometry.bitmap_isSome fine (G.nrGroups - 1) (journal _)
  obtain ⟨⟨g, i⟩, free⟩ := prepared.findFree_isSome bits
  obtain ⟨rfl, hi, fresh, -⟩ := prepared.findFree bits free
  have low := (fine.usedBlocks_le (G.nrGroups - 1)).1
  have nonzero : 0 < i := by
    by_contra zero
    exact fresh (.inl (by omega))
  have data : (SwiftBSD.Fs.Geometry.groupStart 0 + i) % 2 ^ 32 ≠ 0 := by
    unfold SwiftBSD.Fs.Geometry.groupStart
    omega
  have small : ¬65536 < G.nrGroups := by omega
  refine ⟨G.writeRoot 0 i bm (G.writeGds G.gdBlocks (img.set 0 G.superblock.toBlock)), ?_⟩
  refine (if_neg small).trans ?_
  refine Option.bind_eq_some_iff.mpr ⟨img, bitmaps, ?_⟩
  refine Option.bind_eq_some_iff.mpr ⟨bm, bits, ?_⟩
  refine Option.bind_eq_some_iff.mpr ⟨(0, i), free, ?_⟩
  exact if_neg data

end SwiftBSD.Proof.Fs
