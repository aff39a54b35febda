import SwiftBSD.Proof.Userland.Paths

namespace SwiftBSD.Proof.Userland
open Lib SwiftBSD.Userland.Shell

variable {cwd out : Bytes 256} {here rel path : List UInt8} {names cs : List (List UInt8)} {c : List UInt8} {t u : Text} {w : Work}

def Fits : List (List UInt8) → List (List UInt8) → Prop
  | _, [] => True
  | names, c :: rest => ¬TooLong names c ∧ Fits (enter names c) rest

instance decidableFits : (names cs : List (List UInt8)) → Decidable (Fits names cs)
  | _, [] => .isTrue trivial
  | names, c :: rest =>
      have := decidableFits (enter names c) rest
      inferInstanceAs (Decidable (_ ∧ _))

/-- The directory that `rel` denotes; without an argument that is the root. -/
def directory (here rel : List UInt8) : List (List UInt8) := if rel = [] then [] else (parts slash rel).foldl enter (origin here rel)

/-- A slash in front, no trailing slash except for the root, and no component that is empty, `.` or `..`. -/
def Canonical (path : List UInt8) : Prop :=
  path.head? = some slash ∧ (path = [slash] ∨ ∀ c ∈ path.tail.splitOn slash, c ≠ [] ∧ c ≠ [dot] ∧ c ≠ [dot, dot])

def lastStep (cs : List (List UInt8)) : Option (List UInt8) := (cs.filter fun c => c != [dot]).getLast?

/-- `rel` denotes the root, or its last component other than `.` is a name, or it has none and the current directory has no slash at its end. -/
def Met (here rel : List UInt8) : Prop :=
  directory here rel = [] ∨ match lastStep (parts slash rel) with
    | some c => c ≠ [dot, dot]
    | none => here.getLast? ≠ some slash

/-- `normalize_path(rel, out)` leaves this string in `out`. -/
def Writes (cwd : Bytes 256) (rel : List UInt8) (w : Work) (out : Bytes 256) (path : List UInt8) : Prop :=
  ∃ result, normalizePath cwd rel w out = some result ∧ result.Holds path

def Text.result (t : Text) (rel : List UInt8) : Text := if rel = [] then ⟨[], true⟩ else (t.origin rel).resolve (parts slash rel)

theorem normalizePath_result (stored : Stored cwd t) (noNul : 0 ∉ rel) (w : Work) (out : Bytes 256) :
    ∃ result, normalizePath cwd rel w out = some result ∧ Stored result (t.result rel) := by
  unfold Text.result
  by_cases empty : rel = []
  · rw [if_pos empty, empty]
    exact normalizePath_nil cwd w out
  · rw [if_neg empty]
    exact normalizePath_stored stored empty noNul w out

theorem Stored.writes (stored : Stored cwd t) (noNul : 0 ∉ rel) (w : Work) (out : Bytes 256) : Writes cwd rel w out (t.result rel).chars := by
  obtain ⟨result, run, after⟩ := normalizePath_result stored noNul w out
  exact ⟨result, run, after.holds⟩

theorem Writes.unique {p q : List UInt8} (first : Writes cwd rel w out p) (second : Writes cwd rel w out q) : p = q := by
  obtain ⟨a, run, holds⟩ := first
  obtain ⟨b, same, holds'⟩ := second
  obtain rfl := Option.some.inj (run.symm.trans same)
  exact holds.unique holds'

theorem resolve_of_fits (fits : Fits names cs) : resolve names cs = cs.foldl enter names := by
  induction cs generalizing names with
  | nil => rfl
  | cons c cs ih =>
      rw [resolve, if_neg fits.1, List.foldl_cons]
      exact ih fits.2

theorem trailing_of_fits (fits : Fits t.names cs) :
    (t.resolve cs).trailing = match lastStep cs with
      | some c => c == [dot, dot]
      | none => t.trailing := by
  induction cs generalizing t with
  | nil => rfl
  | cons c cs ih =>
      rw [Text.resolve, if_neg fits.1, ih (by rw [Text.enter_names]; exact fits.2)]
      unfold lastStep
      by_cases noDot : c = [dot]
      · rw [List.filter_cons_of_neg (by simpa using noDot), Text.enter, if_pos noDot]
      · rw [List.filter_cons_of_pos (by simpa using noDot)]
        cases rest : (cs.filter fun c => c != [dot]).getLast? with
        | some d =>
            rw [List.getLast?_cons, rest]
            rfl
        | none =>
            rw [List.getLast?_cons, rest, Text.enter, if_neg noDot]
            dsimp only [Option.getD_none]
            split
            · next dots => rw [dots]; rfl
            · next noDots => exact (beq_false_of_ne noDots).symm

theorem splitOn_pathOf (proper : ∀ c ∈ names, Name c) (some_ : names ≠ []) : (pathOf names).tail.splitOn slash = names := by
  induction names with
  | nil => exact absurd rfl some_
  | cons c names ih =>
      have first := proper c (by simp)
      have tail : (pathOf (c :: names)).tail = c ++ pathOf names := rfl
      rw [tail]
      cases names with
      | nil =>
          rw [pathOf, List.flatMap_nil, List.append_nil]
          exact List.splitOn_eq_singleton first.noSlash
      | cons d names =>
          have rest := ih (fun e member => proper e (List.mem_cons_of_mem c member)) (List.cons_ne_nil d names)
          have more : pathOf (d :: names) = slash :: (pathOf (d :: names)).tail := rfl
          rw [more, List.splitOn_append_cons_of_beq _ _ (beq_self_eq_true slash), rest, List.splitOn_eq_singleton first.noSlash]
          rfl

theorem canonical_iff (proper : t.Proper) : Canonical t.chars ↔ t.names = [] ∨ t.trailing = false := by
  constructor
  · rintro ⟨-, canonical⟩
    by_contra wrong
    obtain ⟨some_, slashed⟩ := not_or.mp wrong
    rw [Bool.not_eq_false] at slashed
    have chars : t.chars = pathOf t.names ++ [slash] := by rw [Text.chars, slashed, if_pos rfl]
    obtain ⟨c, rest, list⟩ := List.exists_cons_of_ne_nil some_
    have front : pathOf t.names = slash :: (pathOf t.names).tail := by rw [list]; rfl
    rw [chars, front] at canonical
    rcases canonical with root | components
    · exact absurd root (by simp)
    · rw [List.cons_append, List.tail_cons, List.splitOn_append_cons_of_beq _ _ (beq_self_eq_true slash)] at components
      exact (components [] (List.mem_append_right _ (by simp))).1 rfl
  · intro met
    refine ⟨proper.head?_chars, ?_⟩
    by_cases empty : t.names = []
    · left
      rw [Text.chars, empty, proper.root empty]
      rfl
    · right
      rw [Text.chars, met.resolve_left empty, if_neg Bool.false_ne_true, List.append_nil, splitOn_pathOf proper.names empty]
      exact fun c member => ⟨(proper.names c member).some_, (proper.names c member).noDot, (proper.names c member).noDots⟩

theorem resolve_names_eq (proper : ∀ c ∈ cs, Name c) (some_ : cs ≠ []) (short : (pathOf (t.names ++ cs)).length ≤ 254) :
    t.resolve cs = ⟨t.names ++ cs, false⟩ := by
  induction cs generalizing t with
  | nil => exact absurd rfl some_
  | cons c cs ih =>
      have first := proper c (by simp)
      have fits : ¬TooLong t.names c := by
        rintro ⟨-, -, long⟩
        have whole : pathOf (t.names ++ c :: cs) = pathOf (t.names ++ [c]) ++ pathOf cs := by simp [pathOf]
        rw [whole, List.length_append] at short
        omega
      have entered : t.enter c = ⟨t.names ++ [c], false⟩ := by rw [Text.enter, if_neg first.noDot, if_neg first.noDots]
      rw [Text.resolve, if_neg fits, entered]
      cases cs with
      | nil => rfl
      | cons d cs =>
          rw [ih (fun e member => proper e (List.mem_cons_of_mem c member)) (List.cons_ne_nil d cs) (by simpa using short), List.append_assoc]
          rfl

theorem result_chars (proper : t.Proper) (short : t.chars.length ≤ 254) (u : Text) :
    u.result t.chars = if t.names = [] then ⟨[], true⟩ else ⟨t.names, false⟩ := by
  have head := proper.head?_chars
  have some_ : t.chars ≠ [] := by
    intro empty
    rw [empty] at head
    cases head
  rw [Text.result, if_neg some_, Text.origin, if_pos head, proper.parts_chars]
  split
  · next empty => rw [empty]; rfl
  · next names =>
    have long : (pathOf t.names).length ≤ t.chars.length := by
      rw [Text.chars, List.length_append]
      omega
    exact resolve_names_eq (t := ⟨[], true⟩) proper.names names (long.trans short)

theorem writes_self_iff (stored : Stored cwd u) (proper : t.Proper) (short : t.chars.length ≤ 254) (w : Work) (out : Bytes 256) :
    Writes cwd t.chars w out t.chars ↔ t.names = [] ∨ t.trailing = false := by
  have writes := stored.writes proper.noNul w out
  rw [result_chars proper short] at writes
  constructor
  · intro same
    by_contra wrong
    obtain ⟨some_, slashed⟩ := not_or.mp wrong
    rw [Bool.not_eq_false] at slashed
    rw [if_neg some_] at writes
    have equal := congrArg List.length (same.unique writes)
    rw [Text.chars, Text.chars, slashed] at equal
    simp at equal
  · rintro (empty | bare)
    · rw [if_pos empty] at writes
      have chars : t.chars = Text.chars ⟨[], true⟩ := by rw [Text.chars, empty, proper.root empty]; rfl
      rwa [← chars] at writes
    · have some_ : t.names ≠ [] := fun empty => by
        rw [proper.root empty] at bare
        cases bare
      have chars : t.chars = Text.chars ⟨t.names, false⟩ := by rw [Text.chars, bare]; rfl
      rwa [if_neg some_, ← chars] at writes

variable {rel' : List UInt8}

theorem result_names (proper : t.Proper) (fits : Fits (origin t.chars rel) (parts slash rel)) : (t.result rel).names = directory t.chars rel := by
  unfold Text.result directory
  split
  · rfl
  · rw [Text.resolve_names, origin_names proper, resolve_of_fits fits]

theorem met_iff (proper : t.Proper) (fits : Fits (origin t.chars rel) (parts slash rel)) :
    Met t.chars rel ↔ (t.result rel).names = [] ∨ (t.result rel).trailing = false := by
  have names := result_names proper fits
  unfold Met
  rw [← names]
  by_cases root : (t.result rel).names = []
  · exact iff_of_true (.inl root) (.inl root)
  · rw [or_iff_right root, or_iff_right root]
    have some_ : rel ≠ [] := by
      intro empty
      rw [Text.result, if_pos empty] at root
      exact root rfl
    rw [← origin_names proper] at fits
    rw [Text.result, if_neg some_] at root ⊢
    rw [trailing_of_fits fits]
    cases last : lastStep (parts slash rel) with
    | some c => simp
    | none =>
        dsimp only
        unfold Text.origin
        split
        · next absolute =>
            -- only `.` behind the slash
            refine absurd ?_ root
            have dots : ∀ c ∈ parts slash rel, c = [dot] := by simpa [lastStep] using last
            have stays (cs : List (List UInt8)) (all : ∀ c ∈ cs, c = [dot]) (t : Text) : (t.resolve cs).names = t.names := by
              induction cs generalizing t with
              | nil => rfl
              | cons c cs ih =>
                  have first := all c (by simp)
                  rw [Text.resolve, if_neg (fun long => long.1 first), Text.enter, if_pos first]
                  exact ih (fun d member => all d (List.mem_cons_of_mem c member)) t
            rw [stays _ dots, Text.origin, if_pos absolute]
        · rw [ne_eq, proper.getLast?_chars, Bool.not_eq_true]

/-- For two arguments that denote the same directory: both paths are canonical, they are the same string, and normalising them again returns
them, exactly when the condition holds of both. -/
theorem canonical_paths_iff (reached : Reached cwd) (holds : cwd.Holds here) (noNul : 0 ∉ rel) (noNul' : 0 ∉ rel')
    (fits : Fits (origin here rel) (parts slash rel)) (fits' : Fits (origin here rel') (parts slash rel'))
    (same : directory here rel = directory here rel') (w : Work) (out : Bytes 256) :
    ∃ path path', Writes cwd rel w out path ∧ Writes cwd rel' w out path' ∧
      ((Canonical path ∧ Canonical path' ∧ path = path' ∧ (∀ v result, Writes cwd path v result path) ∧ ∀ v result, Writes cwd path' v result path') ↔
        Met here rel ∧ Met here rel') := by
  obtain ⟨t, stored⟩ := stored_of_reached reached
  obtain rfl := holds.unique stored.holds
  obtain ⟨a, _, first⟩ := normalizePath_result stored noNul w out
  obtain ⟨b, _, second⟩ := normalizePath_result stored noNul' w out
  refine ⟨(t.result rel).chars, (t.result rel').chars, stored.writes noNul w out, stored.writes noNul' w out, ?_⟩
  rw [canonical_iff first.proper, canonical_iff second.proper, met_iff stored.proper fits, met_iff stored.proper fits']
  constructor
  · rintro ⟨left, right, -⟩
    exact ⟨left, right⟩
  · rintro ⟨left, right⟩
    refine ⟨left, right, ?_, fun v result => (writes_self_iff stored first.proper first.short v result).mpr left,
      fun v result => (writes_self_iff stored second.proper second.short v result).mpr right⟩
    have names : (t.result rel).names = (t.result rel').names := by
      rw [result_names stored.proper fits, result_names stored.proper fits', same]
    have trailing : (t.result rel).trailing = (t.result rel').trailing := by
      by_cases root : (t.result rel).names = []
      · rw [first.proper.root root, second.proper.root (names ▸ root)]
      · rw [left.resolve_left root, right.resolve_left (names ▸ root)]
    rw [Text.chars, Text.chars, names, trailing]

theorem canonical_paths_iff_root : ∃ path path', Writes root [0x61] ⟨.zero, .zero, 0⟩ .zero path ∧
    Writes root [0x61, slash, dot] ⟨.zero, .zero, 0⟩ .zero path' ∧
      ((Canonical path ∧ Canonical path' ∧ path = path' ∧ (∀ v result, Writes root path v result path) ∧ ∀ v result, Writes root path' v result path') ↔
        Met [slash] [0x61] ∧ Met [slash] [0x61, slash, dot]) :=
  canonical_paths_iff .root root_holds (by decide) (by decide) (by decide) (by decide) (by decide) _ _

/-- `cd a/b/..` in the root leads to `/a/`, and `cd a` to `/a`. -/
theorem dots_leave_slash : Reached root ∧ Fits (origin [slash] [0x61, slash, 0x62, slash, dot, dot]) (parts slash [0x61, slash, 0x62, slash, dot, dot]) ∧
    Writes root [0x61, slash, 0x62, slash, dot, dot] ⟨.zero, .zero, 0⟩ .zero [slash, 0x61, slash] ∧ ¬Canonical [slash, 0x61, slash] ∧
    directory [slash] [0x61, slash, 0x62, slash, dot, dot] = directory [slash] [0x61] ∧
    Writes root [0x61] ⟨.zero, .zero, 0⟩ .zero [slash, 0x61] ∧
    Writes root [slash, 0x61, slash] ⟨.zero, .zero, 0⟩ .zero [slash, 0x61] := by
  have writes (rel path : List UInt8) (plain : 0 ∉ rel) (same : (Text.result ⟨[], true⟩ rel).chars = path) :
      Writes root rel ⟨.zero, .zero, 0⟩ .zero path := by
    rw [← same]
    exact stored_root.writes plain _ _
  refine ⟨.root, by decide, writes _ _ (by decide) (by decide), ?_, by decide, writes _ _ (by decide) (by decide),
    writes _ _ (by decide) (by decide)⟩
  rintro ⟨-, same | components⟩
  · cases same
  · exact (components [] (by decide)).1 rfl

end SwiftBSD.Proof.Userland
