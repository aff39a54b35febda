import SwiftBSD.Fs.Format
import Mathlib.Tactic.IntervalCases

namespace SwiftBSD.Proof.Fs
open Lib SwiftBSD.Fs

theorem toList_length {n : Nat} (b : Bytes n) : b.toList.length = n := by simp [Bytes.toList]

theorem ofList_toList_append {n : Nat} (b : Bytes n) (rest : List UInt8) :
    Bytes.ofList (b.toList ++ rest) = b := by
  apply Bytes.ext_get
  intro i hi
  simp only [Bytes.get, Bytes.ofList, hi, dite_true, List.getD_eq_getElem?_getD]
  rw [List.getElem?_append_left (by rw [toList_length]; exact hi)]
  simp [Bytes.toList, hi]

theorem ofList_toList {n : Nat} (b : Bytes n) : Bytes.ofList b.toList = b := by
  simpa using ofList_toList_append b []

def packDirect (direct : Fin 12 → UInt32) : List UInt8 :=
  (List.ofFn fun k => leBytes 4 (direct k).toNat).flatten

theorem packDirect_entries (direct : Fin 12 → UInt32) :
    ∀ l ∈ List.ofFn fun k => leBytes 4 (direct k).toNat, l.length = 4 := by
  intro l hl
  obtain ⟨k, rfl⟩ := (List.mem_ofFn' _ l).mp hl
  exact length_leBytes 4 _

theorem length_packDirect (direct : Fin 12 → UInt32) : (packDirect direct).length = 48 := by
  rw [packDirect, length_flatten_of_forall (packDirect_entries direct), List.length_ofFn]

theorem packDirect_field (direct : Fin 12 → UInt32) (rest : List UInt8) (k : Fin 12) :
    ((packDirect direct ++ rest).drop (4 * k.val)).take 4 = leBytes 4 (direct k).toNat := by
  have len := length_packDirect direct
  have bound : 4 * k.val + 4 ≤ 48 := by omega
  have taken := take_drop_flatten (packDirect_entries direct) k.val (by rw [List.length_ofFn]; exact k.isLt)
  rw [List.getElem_ofFn] at taken
  rw [List.drop_append_of_le_length (by omega),
    List.take_append_of_le_length (by rw [List.length_drop]; omega)]
  exact taken

theorem encode_eq (x : Inode) : x.encode =
    leBytes 2 x.mode.toNat ++ (leBytes 2 x.uid.toNat ++ (leBytes 2 x.gid.toNat ++
    (leBytes 8 x.size.toNat ++ (leBytes 4 x.atime.toNat ++ (leBytes 4 x.mtime.toNat ++
    (leBytes 4 x.ctime.toNat ++ (leBytes 4 x.blockCount.toNat ++
    (packDirect x.direct ++ (leBytes 4 x.indirect.toNat ++
    (leBytes 4 x.doubleIndirect.toNat ++ x.pad.toList)))))))))) := rfl

theorem length_encode (x : Inode) : x.encode.length = 106 := by
  simp [encode_eq, toList_length, length_packDirect]

theorem decode_encode (x : Inode) : Inode.decode x.encode = x := by
  have len := length_packDirect x.direct
  have direct : (fun k : Fin 12 => UInt32.ofNat (leNat ((x.encode.drop (30 + 4 * k.val)).take 4))) = x.direct := by
    funext k
    have skip : x.encode.drop 30 = packDirect x.direct ++ (leBytes 4 x.indirect.toNat ++
        (leBytes 4 x.doubleIndirect.toNat ++ x.pad.toList)) := by
      simp [encode_eq, List.drop_append, List.drop_of_length_le]
    rw [← List.drop_drop, skip, packDirect_field, uint32_leNat_leBytes]
  unfold Inode.decode
  rw [direct]
  simp [encode_eq, List.drop_append, List.drop_of_length_le, len, uint16_leNat_leBytes,
    uint32_leNat_leBytes, uint64_leNat_leBytes, ofList_toList]

theorem super_length_encode (sb : Super) : sb.encode.length = 4096 := by
  simp [Super.encode, toList_length]

theorem drop_field {l rest : List UInt8} {k w v : Nat} (h : l.drop k = leBytes w v ++ rest) :
    (l.drop k).take w = leBytes w v ∧ l.drop (k + w) = rest := by
  rw [← List.drop_drop, h]
  exact ⟨List.take_left' (length_leBytes w v), List.drop_left' (length_leBytes w v)⟩

theorem drop_bytes {n : Nat} {b : Bytes n} {l rest : List UInt8} {k : Nat} (h : l.drop k = b.toList ++ rest) :
    Bytes.ofList (l.drop k) = b ∧ l.drop (k + n) = rest := by
  rw [← List.drop_drop, h]
  exact ⟨ofList_toList_append b rest, List.drop_left' (toList_length b)⟩

theorem super_decode_encode (sb : Super) : Super.decode sb.encode = sb := by
  have h0 : sb.encode.drop 0 = _ := rfl
  have h8 : sb.encode.drop 8 = _ := (drop_field h0).2
  have h16 : sb.encode.drop 16 = _ := (drop_field h8).2
  have h24 : sb.encode.drop 24 = _ := (drop_field h16).2
  have h32 : sb.encode.drop 32 = _ := (drop_field h24).2
  have h40 : sb.encode.drop 40 = _ := (drop_field h32).2
  have h48 : sb.encode.drop 48 = _ := (drop_field h40).2
  have h52 : sb.encode.drop 52 = _ := (drop_field h48).2
  have h56 : sb.encode.drop 56 = _ := (drop_field h52).2
  have h60 : sb.encode.drop 60 = _ := (drop_field h56).2
  have h64 : sb.encode.drop 64 = _ := (drop_field h60).2
  have h72 : sb.encode.drop 72 = _ := (drop_field h64).2
  have h80 : sb.encode.drop 80 = _ := (drop_field h72).2
  have h88 : sb.encode.drop 88 = _ := (drop_field h80).2
  have h104 : sb.encode.drop 104 = _ := (drop_bytes h88).2
  have h136 : sb.encode.drop 136 = sb.pad.toList := (drop_bytes h104).2
  have pad : Bytes.ofList (sb.encode.drop 136) = sb.pad := by rw [h136, ofList_toList]
  have magic := (drop_field h0).1
  rw [List.drop_zero] at magic
  unfold Super.decode
  rw [magic, (drop_field h8).1, (drop_field h16).1, (drop_field h24).1, (drop_field h32).1, (drop_field h40).1, (drop_field h48).1, (drop_field h52).1, (drop_field h56).1, (drop_field h60).1, (drop_field h64).1, (drop_field h72).1, (drop_field h80).1, (drop_bytes h88).1, (drop_bytes h104).1, pad]
  simp only [uint32_leNat_leBytes, uint64_leNat_leBytes]

theorem super_ofBlock_toBlock (sb : Super) : Super.ofBlock sb.toBlock = sb := by
  rw [Super.ofBlock, Super.toBlock, Bytes.read_ofList _ (super_length_encode sb), super_decode_encode]

theorem gd_length_encode (gd : Gd) : gd.encode.length = 32 := by
  simp [Gd.encode, toList_length]

theorem gd_decode_encode (gd : Gd) : Gd.decode gd.encode = gd := by
  obtain ⟨_, _, _, _, _⟩ := gd
  simp [Gd.decode, Gd.encode, List.drop_append, List.drop_of_length_le,
    uint32_leNat_leBytes, ofList_toList]

theorem gd_read_toBlock (gd : Nat → Gd) (i k : Nat) (h : k < 128) :
    (Gd.toBlock gd i).read (k * 32) 32 = (gd (i * 128 + k)).encode := by
  apply List.ext_getElem
  · simp [gd_length_encode]
  · intro j hj hj'
    rw [gd_length_encode] at hj'
    rw [Bytes.getElem_read]
    have inside : k * 32 + j < 4096 := by omega
    have quotient : (k * 32 + j) / 32 = k := by omega
    have rest : (k * 32 + j) % 32 = j := by omega
    simp only [Bytes.get, inside, dite_true, Gd.toBlock, quotient, rest, List.getD_eq_getElem?_getD]
    rw [List.getElem?_eq_getElem (by rw [gd_length_encode]; exact hj'), Option.getD_some]

theorem gd_ofBlocks_toBlock (gd : Nat → Gd) (raw : Nat → Block) (k : Nat)
    (h : raw (k / 128) = Gd.toBlock gd (k / 128)) : Gd.ofBlocks raw k = gd k := by
  have index : k / 128 * 128 + k % 128 = k := by omega
  rw [Gd.ofBlocks, h, gd_read_toBlock gd _ _ (Nat.mod_lt _ (by omega)), index, gd_decode_encode]

theorem testBit_or_shift (v : UInt8) {i j : Nat} (hi : i < 8) (hj : j < 8) :
    (v ||| (1 <<< UInt8.ofNat i)).toNat.testBit j = (v.toNat.testBit j || decide (j = i)) := by
  rw [UInt8.toNat_or, Nat.testBit_or]
  congr 1
  interval_cases i <;> interval_cases j <;> rfl

theorem testBit_and_not_shift (v : UInt8) {i j : Nat} (hi : i < 8) (hj : j < 8) :
    (v &&& ~~~(1 <<< UInt8.ofNat i)).toNat.testBit j = (v.toNat.testBit j && !decide (j = i)) := by
  rw [UInt8.toNat_and, Nat.testBit_and]
  congr 1
  interval_cases i <;> interval_cases j <;> rfl

theorem get_write_byte (b : Block) (off i : Nat) (v : UInt8) (h : off < 4096) :
    (b.write off [v]).get i = if i = off then v else b.get i := by
  rw [Bytes.get_write]
  by_cases same : i = off
  · subst same
    simp [h]
  · rw [if_neg (by simp; omega), if_neg same]

theorem bitTest_bitSet (bm : Block) {i j : Nat} (hi : i < 32768) :
    bitTest (bitSet bm i) j = (bitTest bm j || decide (j = i)) := by
  unfold bitTest bitSet
  rw [get_write_byte _ _ _ _ (by omega)]
  split
  · next same =>
      rw [testBit_or_shift _ (Nat.mod_lt _ (by omega)) (Nat.mod_lt _ (by omega)), same]
      congr 2
      exact propext ⟨fun h => by omega, fun h => by omega⟩
  · next other =>
      have : j ≠ i := fun h => other (by rw [h])
      simp [this]

theorem bitTest_bitClear (bm : Block) {i j : Nat} (hi : i < 32768) :
    bitTest (bitClear bm i) j = (bitTest bm j && !decide (j = i)) := by
  unfold bitTest bitClear
  rw [get_write_byte _ _ _ _ (by omega)]
  split
  · next same =>
      rw [testBit_and_not_shift _ (Nat.mod_lt _ (by omega)) (Nat.mod_lt _ (by omega)), same]
      congr 3
      exact propext ⟨fun h => by omega, fun h => by omega⟩
  · next other =>
      have : j ≠ i := fun h => other (by rw [h])
      simp [this]

end SwiftBSD.Proof.Fs
