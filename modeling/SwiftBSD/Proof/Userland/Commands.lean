import SwiftBSD.Proof.Userland.Paths
import SwiftBSD.User.Exec

namespace SwiftBSD.Proof.Userland
open Lib SwiftBSD.Userland.Shell

variable {cwd : Bytes 256} {here line : List UInt8} {t : Text}

def firstWord (line : List UInt8) : List UInt8 := (line.dropWhile (· == space)).takeWhile (· != space)

def restOfLine (line : List UInt8) : List UInt8 := ((line.dropWhile (· == space)).dropWhile (· != space)).dropWhile (· == space)

def builtIns : List (List UInt8) := [exitWord, haltWord, quitWord, cdWord, freeWord, memWord]

def argumentsFor (here line : List UInt8) : List UInt8 := if firstWord line = lsWord ∧ restOfLine line = [] then here else restOfLine line

/-- The program named by the line gets the arguments of the line, and the kernel takes all of them, or nothing runs. -/
def Runs (here line : List UInt8) : Option Command → Prop
  | some (.exec path page) => path.Holds (binDir ++ firstWord line) ∧ page.Holds (argumentsFor here line) ∧
      User.argsBuf (argumentsFor here line) = argumentsFor here line ++ [0]
  | some .prompt => True
  | _ => False

theorem firstWord_sublist (line : List UInt8) : (firstWord line).Sublist line :=
  (List.takeWhile_sublist _).trans (List.dropWhile_sublist _)

theorem restOfLine_sublist (line : List UInt8) : (restOfLine line).Sublist line :=
  ((List.dropWhile_sublist _).trans (List.dropWhile_sublist _)).trans (List.dropWhile_sublist _)

theorem dispatch_program (some_ : firstWord line ≠ []) (other : firstWord line ∉ builtIns) (l : Locals) : dispatch cwd line l =
    (programPath (firstWord line) l.path).bind fun path => (copyArgs cwd (firstWord line) (restOfLine line) l.page).map (Command.exec path) := by
  have words : line.dropWhile (· == space) ≠ [] := by
    intro empty
    refine some_ ?_
    rw [firstWord, empty, List.takeWhile_nil]
  simp only [builtIns, List.mem_cons, List.not_mem_nil, or_false, not_or] at other
  obtain ⟨noExit, noHalt, noQuit, noCd, noFree, noMem⟩ := other
  unfold dispatch
  rw [if_neg words]
  change (if firstWord line = exitWord then _ else _) = _
  rw [if_neg noExit]
  change (if firstWord line = haltWord then _ else _) = _
  rw [if_neg noHalt]
  change (if firstWord line = quitWord then _ else _) = _
  rw [if_neg noQuit]
  change (if firstWord line = cdWord then _ else _) = _
  rw [if_neg noCd]
  change (if firstWord line = freeWord ∨ firstWord line = memWord then _ else _) = _
  rw [if_neg (not_or.mpr ⟨noFree, noMem⟩)]
  change (programPath (firstWord line) l.path).bind (fun path =>
    (copyArgs cwd (firstWord line) (restOfLine line) l.page).bind fun args => some (Command.exec path args)) = _
  congr
  funext path
  rw [Option.map_eq_bind]
  rfl

theorem programPath_eq (cmd : List UInt8) (path : Bytes 64) :
    programPath cmd path = (path.write 0 (binDir ++ cmd.take 56)).store (5 + cmd.length) 0 := by
  have cut : (cmd.take 56).length ≤ 56 := by rw [List.length_take]; omega
  have directory : Bytes.copyChars 5 0 binDir 0 path = some (5, path.write 0 binDir) := Bytes.copyChars_eq (by decide)
  have name : Bytes.copyChars 56 5 cmd 0 (path.write 0 binDir) = some ((cmd.take 56).length, path.write 0 (binDir ++ cmd.take 56)) := by
    rw [Bytes.copyChars_eq (by rw [Nat.sub_zero]; omega), Nat.sub_zero, Nat.zero_add, ← Bytes.write_append]
    rfl
  rw [programPath, directory]
  simp only [Option.bind_eq_bind, Option.bind_some]
  rw [name, Option.bind_some]

theorem copyArgs_holds (stored : Stored cwd t) (short : line.length ≤ 255) (noNul : 0 ∉ line) (page : Bytes 256) :
    ∃ filled, copyArgs cwd (firstWord line) (restOfLine line) page = some filled ∧ filled.Holds (argumentsFor t.chars line) := by
  unfold copyArgs argumentsFor
  split
  · have whole : t.chars.take 255 = t.chars := List.take_of_length_le (stored.short.trans (by decide))
    have small := stored.short
    rw [Bytes.copyString_eq stored.holds (by rw [whole]; omega), whole]
    exact ⟨_, Bytes.store_of_lt (by omega), Bytes.holds_write (by omega) stored.proper.noNul⟩
  · have small := (restOfLine_sublist line).length_le
    have whole : (restOfLine line).take 255 = restOfLine line := List.take_of_length_le (by omega)
    rw [Bytes.copyChars_eq (by rw [Nat.sub_zero, whole]; omega), Nat.sub_zero, whole, Nat.zero_add, Nat.zero_add]
    exact ⟨_, Bytes.store_of_lt (by omega), Bytes.holds_write (by omega) fun member => noNul ((restOfLine_sublist line).subset member)⟩

theorem argsBuf_eq {args : List UInt8} (noNul : 0 ∉ args) (short : args.length ≤ 255) : User.argsBuf args = args ++ [0] := by
  have plain : args.takeWhile (· ≠ 0) = args := Bytes.takeWhile_plain (fun c other => decide_eq_true other) noNul
  rw [User.argsBuf, plain, List.take_of_length_le short]

theorem not_runs_of_long (some_ : firstWord line ≠ []) (other : firstWord line ∉ builtIns) (long : 56 < (firstWord line).length)
    (work : Work) (buf page : Bytes 256) : ¬Runs here line (dispatch cwd line ⟨work, buf, .zero, page⟩) := by
  rw [dispatch_program some_ other, programPath_eq]
  by_cases inside : 5 + (firstWord line).length < 64
  · rw [Bytes.store_of_lt inside, Option.bind_some]
    cases copyArgs cwd (firstWord line) (restOfLine line) page with
    | none => exact id
    | some filled =>
        rintro ⟨holds, -⟩
        have length : (binDir ++ firstWord line).length = 5 + (firstWord line).length := by rw [List.length_append]; rfl
        have cut : (binDir ++ (firstWord line).take 56).length = 61 := by
          rw [List.length_append, List.length_take, Nat.min_eq_left long.le]
          rfl
        refine holds.get_ne (i := 61) (by omega) ?_
        rw [Bytes.get_write, if_neg (by omega), Bytes.get_write_of_ge _ _ (by omega), Bytes.get_zero]
  · have outside : (Bytes.zero.write 0 (binDir ++ (firstWord line).take 56) : Bytes 64).store (5 + (firstWord line).length) 0 = none := if_neg inside
    rw [outside]
    exact id

/-- For every content of the arrays: the shell stays inside them and passes on the whole name and the arguments, exactly when the name has at
most 56 characters. -/
theorem dispatch_runs_iff (reached : Reached cwd) (holds : cwd.Holds here) (short : line.length ≤ 255) (noNul : 0 ∉ line)
    (some_ : firstWord line ≠ []) (other : firstWord line ∉ builtIns) :
    (∀ l, Runs here line (dispatch cwd line l)) ↔ (firstWord line).length ≤ 56 := by
  obtain ⟨t, stored⟩ := stored_of_reached reached
  obtain rfl := holds.unique stored.holds
  constructor
  · intro runs
    by_contra long
    exact not_runs_of_long some_ other (Nat.not_le.mp long) ⟨.zero, .zero, 0⟩ .zero .zero (runs ⟨⟨.zero, .zero, 0⟩, .zero, .zero, .zero⟩)
  · intro fits l
    have length : (binDir ++ firstWord line).length = 5 + (firstWord line).length := by rw [List.length_append]; rfl
    obtain ⟨filled, copied, arguments⟩ := copyArgs_holds stored short noNul l.page
    rw [dispatch_program some_ other, programPath_eq, List.take_of_length_le fits, Bytes.store_of_lt (by omega), copied]
    refine ⟨?_, arguments, argsBuf_eq arguments.plain (Nat.le_of_lt_succ arguments.fits)⟩
    rw [← length]
    refine Bytes.holds_write (by omega) fun member => ?_
    rcases List.mem_append.mp member with member | member
    · exact absurd member (by decide)
    · exact noNul ((firstWord_sublist line).subset member)

theorem dispatch_runs_iff_cat : (∀ l, Runs [slash] [0x63, 0x61, 0x74, space, 0x78] (dispatch root [0x63, 0x61, 0x74, space, 0x78] l)) ↔
    (firstWord [0x63, 0x61, 0x74, space, 0x78]).length ≤ 56 :=
  dispatch_runs_iff .root root_holds (by decide) (by decide) (by decide) (by decide)

/-- A name of 60 characters: the terminator goes to `path[65]`. -/
theorem long_name_outside : (List.replicate 60 0x61).length ≤ 255 ∧ firstWord (List.replicate 60 0x61) ∉ builtIns ∧
    ∀ l, dispatch root (List.replicate 60 0x61) l = none := by
  refine ⟨by decide, by decide, fun l => ?_⟩
  rw [dispatch_program (by decide) (by decide), programPath_eq]
  rfl

end SwiftBSD.Proof.Userland
