import Mathlib.Data.Fintype.Pi
import Mathlib.Data.List.OfFn
import Mathlib.Tactic.Ring

namespace SwiftBSD.Lib

def leBytes : Nat → Nat → List UInt8
  | 0, _ => []
  | w+1, v => UInt8.ofNat v :: leBytes w (v / 256)

def leNat : List UInt8 → Nat
  | [] => 0
  | b :: bs => b.toNat + 256 * leNat bs

@[simp] theorem length_leBytes (w v : Nat) : (leBytes w v).length = w := by
  induction w generalizing v with
  | zero => rfl
  | succ w ih => simp [leBytes, ih]

theorem leNat_leBytes (w v : Nat) : leNat (leBytes w v) = v % 256 ^ w := by
  induction w generalizing v with
  | zero => simp [leBytes, leNat, Nat.mod_one]
  | succ w ih =>
      rw [leBytes, leNat, ih, Nat.pow_succ', Nat.mod_mul]
      simp [UInt8.toNat_ofNat']

theorem leNat_lt (bs : List UInt8) : leNat bs < 256 ^ bs.length := by
  induction bs with
  | nil => simp [leNat]
  | cons b bs ih =>
      have hb := b.toNat_lt
      rw [leNat, List.length_cons, Nat.pow_succ']
      omega

theorem uint16_leNat_leBytes (v : UInt16) : UInt16.ofNat (leNat (leBytes 2 v.toNat)) = v := by
  apply UInt16.toNat_inj.mp
  rw [leNat_leBytes, UInt16.toNat_ofNat']
  have := v.toNat_lt
  omega

theorem uint32_leNat_leBytes (v : UInt32) : UInt32.ofNat (leNat (leBytes 4 v.toNat)) = v := by
  apply UInt32.toNat_inj.mp
  rw [leNat_leBytes, UInt32.toNat_ofNat']
  have := v.toNat_lt
  omega

theorem uint64_leNat_leBytes (v : UInt64) : UInt64.ofNat (leNat (leBytes 8 v.toNat)) = v := by
  apply UInt64.toNat_inj.mp
  rw [leNat_leBytes, UInt64.toNat_ofNat']
  have := v.toNat_lt
  omega

theorem take_drop_flatten {ls : List (List UInt8)} {w : Nat} (h : ∀ l ∈ ls, l.length = w) (k : Nat)
    (hk : k < ls.length) : (ls.flatten.drop (w * k)).take w = ls[k] := by
  induction ls generalizing k with
  | nil => simp at hk
  | cons l ls ih =>
      have hl : l.length = w := h l (by simp)
      cases k with
      | zero => simp [List.take_left' hl]
      | succ k =>
          have hk' : k < ls.length := by simpa using hk
          have split : w * (k+1) = l.length + w * k := by rw [hl]; ring
          rw [List.flatten_cons, split, List.drop_append, List.drop_of_length_le (by omega)]
          simpa using ih (fun m hm => h m (by simp [hm])) k hk'

theorem length_flatten_of_forall {ls : List (List UInt8)} {w : Nat} (h : ∀ l ∈ ls, l.length = w) :
    ls.flatten.length = w * ls.length := by
  induction ls with
  | nil => simp
  | cons l ls ih =>
      rw [List.flatten_cons, List.length_append, h l (by simp), ih fun m hm => h m (by simp [hm]),
        List.length_cons]
      ring

structure Bytes (n : Nat) where
  byte : Fin n → UInt8
deriving DecidableEq

namespace Bytes
variable {n : Nat}

def get (b : Bytes n) (i : Nat) : UInt8 := if h : i < n then b.byte ⟨i, h⟩ else 0

def zero : Bytes n := ⟨fun _ => 0⟩

def toList (b : Bytes n) : List UInt8 := List.ofFn b.byte

def read (b : Bytes n) (off len : Nat) : List UInt8 := (List.range len).map fun i => b.get (off + i)

def write (b : Bytes n) (off : Nat) (src : List UInt8) : Bytes n :=
  ⟨fun i => if off ≤ i.val ∧ i.val < off + src.length then src.getD (i.val - off) 0 else b.byte i⟩

def field (b : Bytes n) (off w : Nat) : Nat := leNat (b.read off w)

theorem ext_get {a b : Bytes n} (h : ∀ i < n, a.get i = b.get i) : a = b := by
  obtain ⟨a⟩ := a
  obtain ⟨b⟩ := b
  congr
  funext i
  have := h i.val i.isLt
  simpa [get, i.isLt] using this

def ofList (l : List UInt8) : Bytes n := ⟨fun i => l.getD i.val 0⟩

theorem read_ofList (l : List UInt8) (h : l.length = n) : (ofList l : Bytes n).read 0 n = l := by
  apply List.ext_getElem
  · simp [read, h]
  · intro i hi hi'
    simp only [read, List.length_map, List.length_range] at hi
    simp [read, get, ofList, hi, List.getElem?_eq_getElem hi']

@[simp] theorem get_zero (i : Nat) : (zero : Bytes n).get i = 0 := by
  unfold get zero
  split <;> rfl

theorem get_write (b : Bytes n) (off : Nat) (src : List UInt8) (i : Nat) :
    (b.write off src).get i =
      if off ≤ i ∧ i < off + src.length ∧ i < n then src.getD (i - off) 0 else b.get i := by
  unfold get write
  by_cases h : i < n
  · simp [h]
  · simp [h]

theorem get_write_of_lt (b : Bytes n) {off i : Nat} (src : List UInt8) (h : i < off) :
    (b.write off src).get i = b.get i := by
  rw [get_write, if_neg]
  omega

theorem get_write_of_ge (b : Bytes n) {off i : Nat} (src : List UInt8) (h : off + src.length ≤ i) :
    (b.write off src).get i = b.get i := by
  rw [get_write, if_neg]
  omega

@[simp] theorem length_read (b : Bytes n) (off len : Nat) : (b.read off len).length = len := by
  simp [read]

theorem getElem_read (b : Bytes n) (off len i : Nat) (h : i < (b.read off len).length) :
    (b.read off len)[i] = b.get (off + i) := by
  simp [read]

theorem read_congr {a b : Bytes n} {off len : Nat}
    (h : ∀ i, off ≤ i → i < off + len → a.get i = b.get i) : a.read off len = b.read off len := by
  apply List.map_congr_left
  intro i hi
  exact h (off + i) (by omega) (by simpa using hi)

theorem read_write_disjoint (b : Bytes n) {off off' len : Nat} (src : List UInt8)
    (h : off' + len ≤ off ∨ off + src.length ≤ off') :
    (b.write off src).read off' len = b.read off' len := by
  apply read_congr
  intro i hi hi'
  rcases h with h | h
  · exact get_write_of_lt b src (by omega)
  · exact get_write_of_ge b src (by omega)

theorem read_write_inside (b : Bytes n) (off k len : Nat) (src : List UInt8)
    (hk : k + len ≤ src.length) (h : off + src.length ≤ n) :
    (b.write off src).read (off + k) len = (src.drop k).take len := by
  apply List.ext_getElem
  · simp; omega
  · intro i hi hi'
    simp only [length_read] at hi
    rw [getElem_read, get_write, if_pos (by omega)]
    simp only [List.getElem_take, List.getElem_drop]
    rw [List.getD_eq_getElem?_getD, List.getElem?_eq_getElem (by omega), Option.getD_some]
    congr 1
    omega

theorem read_write_same (b : Bytes n) (off : Nat) (src : List UInt8) (h : off + src.length ≤ n) :
    (b.write off src).read off src.length = src := by
  have := read_write_inside b off 0 src.length src (by omega) h
  simpa using this

theorem read_succ (b : Bytes n) (off len : Nat) : b.read off (len + 1) = b.get off :: b.read (off + 1) len := by
  apply List.ext_getElem
  · simp
  · intro i _ _
    cases i with
    | zero => simp [getElem_read]
    | succ i => simp [getElem_read, Nat.add_assoc, Nat.add_comm 1]

theorem field_lt (b : Bytes n) (off w : Nat) : b.field off w < 256 ^ w := by
  simpa [field] using leNat_lt (b.read off w)

theorem field_write_same (b : Bytes n) {off w v : Nat} (h : off + w ≤ n) :
    (b.write off (leBytes w v)).field off w = v % 256 ^ w := by
  have := read_write_same b off (leBytes w v) (by simpa using h)
  rw [length_leBytes] at this
  rw [field, this, leNat_leBytes]

theorem field_write_disjoint (b : Bytes n) {off off' w : Nat} (src : List UInt8)
    (h : off' + w ≤ off ∨ off + src.length ≤ off') :
    (b.write off src).field off' w = b.field off' w := by
  rw [field, read_write_disjoint b src h, field]

theorem field_zero (off w : Nat) : (zero : Bytes n).field off w = 0 := by
  unfold field
  induction w generalizing off with
  | zero => rfl
  | succ w ih =>
      rw [read_succ, get_zero, leNat, ih]
      rfl

end Bytes

end SwiftBSD.Lib
