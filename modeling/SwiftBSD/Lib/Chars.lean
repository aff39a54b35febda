import Mathlib.Data.List.TakeWhile
import SwiftBSD.Lib.Bytes

namespace SwiftBSD.Lib.Bytes

variable {n m : Nat}

def load (b : Bytes n) (i : Nat) : Option UInt8 := if i < n then some (b.get i) else none

def store (b : Bytes n) (i : Nat) (c : UInt8) : Option (Bytes n) := if i < n then some (b.write i [c]) else none

theorem load_of_lt {b : Bytes n} {i : Nat} (inside : i < n) : b.load i = some (b.get i) := if_pos inside

theorem store_of_lt {b : Bytes n} {i : Nat} {c : UInt8} (inside : i < n) : b.store i c = some (b.write i [c]) := if_pos inside

@[simp] theorem write_nil (b : Bytes n) (off : Nat) : b.write off [] = b := by
  apply ext_get
  intro i _
  rw [get_write, if_neg (by simp only [List.length_nil]; omega)]

theorem write_append (b : Bytes n) (off : Nat) (s t : List UInt8) :
    (b.write off s).write (off + s.length) t = b.write off (s ++ t) := by
  apply ext_get
  intro i inside
  simp only [get_write, List.length_append, List.getD_eq_getElem?_getD]
  by_cases low : i < off + s.length
  · rw [if_neg (by omega)]
    by_cases start : off ≤ i
    · rw [if_pos (by omega), if_pos (by omega), List.getElem?_append_left (by omega)]
    · rw [if_neg (by omega), if_neg (by omega)]
  · by_cases high : i < off + s.length + t.length
    · rw [if_pos (by omega), if_pos (by omega), List.getElem?_append_right (by omega)]
      congr 2
      omega
    · rw [if_neg (by omega), if_neg (by omega), if_neg (by omega)]

theorem write_cons (b : Bytes n) (off : Nat) (c : UInt8) (s : List UInt8) : (b.write off [c]).write (off + 1) s = b.write off (c :: s) :=
  write_append b off [c] s

theorem read_append (b : Bytes n) (off k len : Nat) : b.read off (k + len) = b.read off k ++ b.read (off + k) len := by
  simp only [read, List.range_add, List.map_append, List.map_map]
  congr 1
  apply List.map_congr_left
  intro i _
  simp only [Function.comp_apply, Nat.add_assoc]

theorem read_concat (b : Bytes n) (off len : Nat) : b.read off (len + 1) = b.read off len ++ [b.get (off + len)] := read_append b off len 1

theorem read_take (b : Bytes n) (off : Nat) {k len : Nat} (short : k ≤ len) : (b.read off len).take k = b.read off k := by
  obtain ⟨rest, rfl⟩ := Nat.exists_eq_add_of_le short
  rw [read_append, List.take_append_of_le_length (by simp), List.take_of_length_le (by simp)]

theorem read_write_behind (b : Bytes n) {off : Nat} {s : List UInt8} (fits : off + s.length ≤ n) :
    (b.write off s).read 0 (off + s.length) = b.read 0 off ++ s := by
  rw [read_append, Nat.zero_add, read_write_same b off s fits, read_write_disjoint b s (.inl (by omega))]

theorem takeWhile_plain {s : List UInt8} {p : UInt8 → Bool} (keeps : ∀ c, c ≠ 0 → p c = true) (plain : 0 ∉ s) : s.takeWhile p = s := by
  rw [List.takeWhile_eq_self_iff]
  intro c member
  refine keeps c ?_
  rintro rfl
  exact plain member

structure Holds (b : Bytes n) (s : List UInt8) : Prop where
  fits : s.length < n
  chars : b.read 0 s.length = s
  stop : b.get s.length = 0
  plain : 0 ∉ s

namespace Holds

variable {b : Bytes n} {s t : List UInt8}

theorem get_eq (holds : b.Holds s) {i : Nat} (inside : i < s.length) : b.get i = s[i] := by
  have same := getElem_read b 0 s.length i (by simpa using inside)
  rw [Nat.zero_add] at same
  rw [← same]
  congr 1
  exact holds.chars

theorem get_ne (holds : b.Holds s) {i : Nat} (inside : i < s.length) : b.get i ≠ 0 := by
  rw [holds.get_eq inside]
  intro zero
  exact holds.plain (zero ▸ List.getElem_mem inside)

theorem length_eq (first : b.Holds s) (second : b.Holds t) : s.length = t.length := by
  rcases Nat.lt_trichotomy s.length t.length with less | same | more
  · exact absurd first.stop (second.get_ne less)
  · exact same
  · exact absurd second.stop (first.get_ne more)

theorem unique (first : b.Holds s) (second : b.Holds t) : s = t := by
  rw [← first.chars, first.length_eq second, second.chars]

theorem write_behind (holds : b.Holds s) {off : Nat} (behind : s.length < off) (l : List UInt8) : (b.write off l).Holds s where
  fits := holds.fits
  chars := by rw [read_write_disjoint b l (.inl (by omega)), holds.chars]
  stop := by rw [get_write_of_lt b l behind, holds.stop]
  plain := holds.plain

end Holds

theorem holds_write {b : Bytes n} {s : List UInt8} (fits : s.length < n) (plain : 0 ∉ s) :
    ((b.write 0 s).write s.length [0]).Holds s where
  fits := fits
  chars := by
    rw [read_write_disjoint _ _ (.inl (Nat.zero_add _).le)]
    exact read_write_same b 0 s (by omega)
  stop := by rw [get_write, if_pos ⟨le_rfl, by simp, fits⟩, Nat.sub_self]; rfl
  plain := plain

/-- `for (j = 0; j < len; j++) dst[off + j] = src[j];` -/
def copyBytes (src : Bytes n) (dst : Bytes m) (off : Nat) : Nat → Option (Bytes m)
  | 0 => some dst
  | len + 1 => do
      let dst ← copyBytes src dst off len
      dst.store (off + len) (← src.load len)

theorem copyBytes_eq (src : Bytes n) (dst : Bytes m) {off len : Nat} (within : len ≤ n) (fits : off + len ≤ m) :
    copyBytes src dst off len = some (dst.write off (src.read 0 len)) := by
  induction len with
  | zero => simp [copyBytes, read]
  | succ len ih =>
      rw [copyBytes, ih (by omega) (by omega), load_of_lt (by omega)]
      have behind := write_append dst off (src.read 0 len) [src.get len]
      rw [length_read] at behind
      simp only [Option.bind_eq_bind, Option.bind_some]
      rw [store_of_lt (by omega), behind, read_concat, Nat.zero_add]

/-- `for (; *s && j < limit; j++) dst[off + j] = *s++;`, with the value of `j` behind it. -/
def copyChars (limit off : Nat) : List UInt8 → Nat → Bytes m → Option (Nat × Bytes m)
  | [], j, dst => some (j, dst)
  | c :: s, j, dst => if limit ≤ j then some (j, dst) else do copyChars limit off s (j + 1) (← dst.store (off + j) c)

theorem copyChars_eq {limit off : Nat} {s : List UInt8} {j : Nat} {dst : Bytes m} (fits : off + j + (s.take (limit - j)).length ≤ m) :
    copyChars limit off s j dst = some (j + (s.take (limit - j)).length, dst.write (off + j) (s.take (limit - j))) := by
  induction s generalizing j dst with
  | nil => simp [copyChars]
  | cons c s ih =>
      rw [copyChars]
      split
      · next full => simp [Nat.sub_eq_zero_of_le full]
      · next room =>
          obtain ⟨k, gap⟩ : ∃ k, limit - j = k + 1 := ⟨limit - j - 1, by omega⟩
          have next_ : limit - (j + 1) = k := by omega
          rw [gap, List.take_succ_cons, List.length_cons] at fits ⊢
          rw [store_of_lt (by omega)]
          simp only [Option.bind_eq_bind, Option.bind_some]
          rw [ih (by rw [next_]; omega), next_, ← Nat.add_assoc, write_cons]
          congr 2
          omega

def copyString (src : Bytes n) (limit : Nat) : Nat → Nat → Bytes m → Option (Nat × Bytes m)
  | 0, _, _ => none
  | fuel + 1, j, dst => do
      let c ← src.load j
      if c = 0 ∨ limit ≤ j then return (j, dst)
      copyString src limit fuel (j + 1) (← dst.store j c)

theorem copyString_from {src : Bytes n} {s : List UInt8} (holds : src.Holds s) {limit fuel j : Nat} {dst : Bytes m}
    (inside : j ≤ s.length) (enough : s.length < j + fuel) : copyString src limit fuel j dst = copyChars limit 0 (s.drop j) j dst := by
  induction fuel generalizing j dst with
  | zero => omega
  | succ fuel ih =>
      rw [copyString, load_of_lt (inside.trans_lt holds.fits)]
      simp only [Option.bind_eq_bind, Option.bind_some]
      rcases Nat.lt_or_ge j s.length with less | whole
      · have here := holds.get_eq less
        rw [List.drop_eq_getElem_cons less, copyChars, ← here]
        by_cases full : limit ≤ j
        · rw [if_pos (.inr full), if_pos full]
          rfl
        · rw [if_neg (by simp only [not_or]; exact ⟨holds.get_ne less, full⟩), if_neg full]
          rw [Nat.zero_add]
          cases stored : dst.store j (src.get j) with
          | none => rfl
          | some next => exact ih less (by omega)
      · obtain rfl : j = s.length := by omega
        rw [if_pos (.inl holds.stop), List.drop_length]
        rfl

theorem copyString_eq {src : Bytes n} {s : List UInt8} (holds : src.Holds s) {limit : Nat} {dst : Bytes m}
    (fits : (s.take limit).length ≤ m) :
    copyString src limit n 0 dst = some ((s.take limit).length, dst.write 0 (s.take limit)) := by
  rw [copyString_from holds (Nat.zero_le _) (by have := holds.fits; omega), List.drop_zero, copyChars_eq (by simpa using fits)]
  simp

def strlenFrom (b : Bytes n) : Nat → Nat → Option Nat
  | 0, _ => none
  | fuel + 1, j => do
      if (← b.load j) = 0 then return j
      strlenFrom b fuel (j + 1)

def strlen (b : Bytes n) : Option Nat := b.strlenFrom n 0

theorem strlen_eq {b : Bytes n} {s : List UInt8} (holds : b.Holds s) : b.strlen = some s.length := by
  have counts (fuel j : Nat) (inside : j ≤ s.length) (enough : s.length < j + fuel) : b.strlenFrom fuel j = some s.length := by
    induction fuel generalizing j with
    | zero => omega
    | succ fuel ih =>
        rw [strlenFrom, load_of_lt (inside.trans_lt holds.fits)]
        simp only [Option.bind_eq_bind, Option.bind_some]
        rcases Nat.lt_or_ge j s.length with less | whole
        · rw [if_neg (holds.get_ne less)]
          exact ih (j + 1) less (by omega)
        · obtain rfl : j = s.length := by omega
          rw [if_pos holds.stop]
          rfl
  exact counts n 0 (Nat.zero_le _) (by have := holds.fits; omega)

theorem holds_of_read {b : Bytes n} {s t : List UInt8} (fits : (s ++ t).length < n) (chars : b.read 0 (s ++ t).length = s ++ t)
    (stop : b.get (s ++ t).length = 0) (plain : 0 ∉ s) (ends : t = [] ∨ t.head? = some 0) : b.Holds s := by
  rw [List.length_append] at fits chars stop
  refine ⟨by omega, ?_, ?_, plain⟩
  · rw [← read_take b 0 (Nat.le_add_right s.length t.length), chars, List.take_left]
  · rcases ends with rfl | head
    · exact stop
    · obtain ⟨t, rfl⟩ := List.head?_eq_some_iff.mp head
      have first : b.read 0 (s.length + 1) = s ++ [0] := by
        rw [← @read_take _ b 0 (s.length + 1) (s.length + (0 :: t).length) (by simp), chars, List.append_cons,
          List.take_left' (by simp)]
      rw [read_concat, Nat.zero_add] at first
      exact List.singleton_inj.mp (List.append_inj' first rfl).2

theorem holds_takeWhile {b : Bytes n} {l : List UInt8} (fits : l.length < n) (chars : b.read 0 l.length = l) (stop : b.get l.length = 0) :
    b.Holds (l.takeWhile (· != 0)) := by
  have plain : 0 ∉ l.takeWhile (· != 0) := by
    intro member
    have := List.all_eq_true.mp (List.all_takeWhile (p := (· != (0 : UInt8))) (l := l)) 0 member
    simp at this
  have ends : l.dropWhile (· != 0) = [] ∨ (l.dropWhile (· != 0)).head? = some 0 := by
    cases rest : l.dropWhile (· != 0) with
    | nil => exact .inl rfl
    | cons c tail =>
        have zero := List.head_dropWhile_not (· != (0 : UInt8)) (l := l) (by rw [rest]; exact List.cons_ne_nil c tail)
        simp only [rest, List.head_cons, bne_eq_false_iff_eq] at zero
        exact .inr (by rw [List.head?_cons, zero])
  have split : l.takeWhile (· != 0) ++ l.dropWhile (· != 0) = l := List.takeWhile_append_dropWhile
  generalize l.takeWhile (· != 0) = s at plain split ⊢
  generalize l.dropWhile (· != 0) = t at ends split
  subst split
  exact holds_of_read fits chars stop plain ends

end SwiftBSD.Lib.Bytes
