import Mathlib.Data.Nat.ModEq
import SwiftBSD.Lib.Bytes

namespace SwiftBSD.Lib.Ring

section Cells
variable {α : Type} {cells cells' : Nat → α} {cap start m n : Nat} {src : List α}

def window (cells : Nat → α) (cap start len : Nat) : List α :=
  (List.range len).map fun k => cells ((start + k) % cap)

structure Spliced (cells cells' : Nat → α) (cap start : Nat) (src : List α) : Prop where
  wrote : ∀ k (h : k < src.length), cells' ((start + k) % cap) = src[k]
  keep : ∀ j, (∀ k, k < src.length → j ≠ (start + k) % cap) → cells' j = cells j

@[simp] theorem length_window : (window cells cap start n).length = n := by
  simp [window]

theorem window_add : window cells cap start (m + n) = window cells cap start m ++ window cells cap (start + m) n := by
  simp only [window, List.range_add, List.map_append, List.map_map]
  congr 1
  apply List.map_congr_left
  intro k _
  simp only [Function.comp_apply, Nat.add_assoc]

theorem wrap_mod {wrap : Nat} (multiple : cap ∣ wrap) (k : Nat) : (start % wrap + k) % cap = (start + k) % cap := by
  rw [Nat.add_mod, Nat.mod_mod_of_dvd _ multiple, ← Nat.add_mod]

theorem window_mod {wrap : Nat} (multiple : cap ∣ wrap) :
    window cells cap (start % wrap) n = window cells cap start n := by
  apply List.map_congr_left
  intro k _
  rw [wrap_mod multiple]

theorem Spliced.of_mod {wrap : Nat} (multiple : cap ∣ wrap) (spliced : Spliced cells cells' cap (start % wrap) src) :
    Spliced cells cells' cap start src := by
  obtain ⟨wrote, keep⟩ := spliced
  simp only [wrap_mod multiple] at wrote keep
  exact ⟨wrote, keep⟩

theorem Spliced.window_new (spliced : Spliced cells cells' cap start src) :
    window cells' cap start src.length = src := by
  apply List.ext_getElem
  · simp
  · intro k _ hk
    simp only [window, List.getElem_map, List.getElem_range]
    exact spliced.wrote k hk

theorem Spliced.window_old (spliced : Spliced cells cells' cap (start + m) src) (fits : m + src.length ≤ cap) :
    window cells' cap start m = window cells cap start m := by
  apply List.map_congr_left
  intro k hk
  apply spliced.keep
  intro l hl same
  have inside := List.mem_range.mp hk
  have equal : start + k ≡ start + (m + l) [MOD cap] := by rw [← Nat.add_assoc]; exact same
  have := Nat.ModEq.eq_of_lt_of_lt (Nat.ModEq.add_left_cancel' start equal) (by omega) (by omega)
  omega

end Cells

variable {cap start n : Nat} {b : Bytes cap} {src : List UInt8}

theorem read_pieces (positive : 0 < cap) (fits : n ≤ cap) :
    window b.get cap start n = if start % cap + n ≤ cap then b.read (start % cap) n
      else b.read (start % cap) (cap - start % cap) ++ b.read 0 (n - (cap - start % cap)) := by
  have small := Nat.mod_lt start positive
  have piece {m : Nat} (inside : start % cap + m ≤ cap) : window b.get cap start m = b.read (start % cap) m := by
    apply List.map_congr_left
    intro k hk
    have := List.mem_range.mp hk
    rw [← Nat.mod_add_mod, Nat.mod_eq_of_lt (by omega)]
  split
  · exact piece ‹_›
  · have split : n = (cap - start % cap) + (n - (cap - start % cap)) := by omega
    have edge : (start + (cap - start % cap)) % cap = 0 := by
      rw [← Nat.mod_add_mod, Nat.add_sub_cancel' small.le, Nat.mod_self]
    rw [split, window_add, piece (by omega), ← split]
    congr 1
    apply List.map_congr_left
    intro k hk
    have := List.mem_range.mp hk
    rw [← Nat.mod_add_mod, edge, Nat.mod_eq_of_lt (by omega)]

theorem spliced_pieces (positive : 0 < cap) (fits : src.length ≤ cap) :
    Spliced b.get (if start % cap + src.length ≤ cap then b.write (start % cap) src
      else (b.write (start % cap) (src.take (cap - start % cap))).write 0 (src.drop (cap - start % cap))).get
      cap start src := by
  have small := Nat.mod_lt start positive
  have place {k : Nat} (hk : k < src.length) : (start + k) % cap =
      if start % cap + k < cap then start % cap + k else start % cap + k - cap := by
    rw [← Nat.mod_add_mod]
    split
    · exact Nat.mod_eq_of_lt ‹_›
    · rw [Nat.mod_eq_sub_mod (by omega), Nat.mod_eq_of_lt (by omega)]
  split
  · next inside =>
      refine ⟨fun k hk => ?_, fun j other => ?_⟩
      · rw [place hk, if_pos (by omega), Bytes.get_write, if_pos (by omega)]
        simp [hk]
      · rw [Bytes.get_write, if_neg]
        intro hit
        refine other (j - start % cap) (by omega) ?_
        rw [place (by omega), if_pos (by omega)]
        omega
  · next outside =>
      refine ⟨fun k hk => ?_, fun j other => ?_⟩
      · rw [place hk]
        split
        · rw [Bytes.get_write_of_ge _ _ (by simp only [List.length_drop]; omega), Bytes.get_write,
            if_pos (by simp only [List.length_take]; omega)]
          simp only [List.getD_eq_getElem?_getD, List.getElem?_take]
          rw [if_pos (by omega), List.getElem?_eq_getElem (by omega), Option.getD_some]
          congr 1
          omega
        · rw [Bytes.get_write, if_pos (by simp only [List.length_drop]; omega)]
          simp only [List.getD_eq_getElem?_getD, List.getElem?_drop]
          rw [List.getElem?_eq_getElem (by omega), Option.getD_some]
          congr 1
          omega
      · rw [Bytes.get_write, if_neg, Bytes.get_write, if_neg]
        · simp only [List.length_take]
          intro hit
          refine other (j - start % cap) (by omega) ?_
          rw [place (by omega), if_pos (by omega)]
          omega
        · simp only [List.length_drop]
          intro hit
          refine other (j + cap - start % cap) (by omega) ?_
          rw [place (by omega), if_neg (by omega)]
          omega

end SwiftBSD.Lib.Ring
