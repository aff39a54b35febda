import SwiftBSD.Lib.Parts
import SwiftBSD.Userland.Shell

namespace SwiftBSD.Proof.Userland
open Lib SwiftBSD.Userland.Shell

def enter (names : List (List UInt8)) (c : List UInt8) : List (List UInt8) :=
  if c = [dot] then names
  else if c = [dot, dot] then names.dropLast
  else names ++ [c]

def pathOf (names : List (List UInt8)) : List UInt8 := names.flatMap (slash :: ·)

/-- A component that makes the path longer than 254 characters. -/
def TooLong (names : List (List UInt8)) (c : List UInt8) : Prop := c ≠ [dot] ∧ c ≠ [dot, dot] ∧ 254 < (pathOf (names ++ [c])).length

instance (names : List (List UInt8)) (c : List UInt8) : Decidable (TooLong names c) := inferInstanceAs (Decidable (_ ∧ _ ∧ _))

/-- One component after the other, up to the first that is too long. -/
def resolve : List (List UInt8) → List (List UInt8) → List (List UInt8)
  | names, [] => names
  | names, c :: rest => if TooLong names c then names else resolve (enter names c) rest

def origin (cwd rel : List UInt8) : List (List UInt8) := if rel.head? = some slash then [] else parts slash cwd

structure Name (c : List UInt8) : Prop where
  some_ : c ≠ []
  noSlash : slash ∉ c
  noNul : 0 ∉ c
  noDot : c ≠ [dot]
  noDots : c ≠ [dot, dot]

/-- What the buffer is about: names, and whether a slash stands behind the last. -/
structure Text where
  names : List (List UInt8)
  trailing : Bool

namespace Text

def chars (t : Text) : List UInt8 := pathOf t.names ++ if t.trailing then [slash] else []

structure Proper (t : Text) : Prop where
  names : ∀ c ∈ t.names, Name c
  root : t.names = [] → t.trailing = true

def enter (t : Text) (c : List UInt8) : Text :=
  if c = [dot] then t
  else if c = [dot, dot] then ⟨t.names.dropLast, true⟩
  else ⟨t.names ++ [c], false⟩

def resolve : Text → List (List UInt8) → Text
  | t, [] => t
  | t, c :: rest => if TooLong t.names c then t else resolve (t.enter c) rest

variable {t : Text} {c : List UInt8} {cs : List (List UInt8)}

theorem enter_names (t : Text) (c : List UInt8) : (t.enter c).names = Userland.enter t.names c := by
  unfold enter Userland.enter
  split
  · rfl
  · split <;> rfl

theorem resolve_names (t : Text) (cs : List (List UInt8)) : (t.resolve cs).names = Userland.resolve t.names cs := by
  induction cs generalizing t with
  | nil => rfl
  | cons c cs ih =>
      rw [resolve, Userland.resolve]
      split
      · rfl
      · rw [ih, enter_names]

end Text

theorem pathOf_concat (names : List (List UInt8)) (c : List UInt8) : pathOf (names ++ [c]) = pathOf names ++ slash :: c := by
  simp [pathOf]

theorem parts_pathOf {names : List (List UInt8)} (proper : ∀ c ∈ names, Name c) : parts slash (pathOf names) = names := by
  induction names using List.reverseRecOn with
  | nil => rfl
  | append_singleton names c ih =>
      have last := proper c (by simp)
      rw [pathOf_concat, parts_append, ih (fun d member => proper d (by simp [member])), parts_eq_singleton last.some_ last.noSlash]

namespace Text.Proper

variable {t : Text} {c : List UInt8}

theorem parts_chars (proper : t.Proper) : parts slash t.chars = t.names := by
  unfold chars
  split
  · rw [parts_concat_self, parts_pathOf proper.names]
  · rw [List.append_nil, parts_pathOf proper.names]

theorem head?_chars (proper : t.Proper) : t.chars.head? = some slash := by
  unfold chars
  cases names : t.names with
  | nil => simp [pathOf, proper.root names]
  | cons c cs => simp [pathOf]

theorem noNul (proper : t.Proper) : 0 ∉ t.chars := by
  have other : (0 : UInt8) ≠ slash := by decide
  unfold chars pathOf
  rw [List.mem_append, List.mem_flatMap]
  rintro (⟨c, member, inside⟩ | inside)
  · rcases List.mem_cons.mp inside with same | inside
    · exact other same
    · exact (proper.names c member).noNul inside
  · split at inside
    · exact other (List.mem_singleton.mp inside)
    · cases inside

theorem getLast?_chars (proper : t.Proper) : t.chars.getLast? = some slash ↔ t.trailing = true := by
  unfold chars
  cases tail : t.trailing with
  | true => rw [if_pos rfl, List.getLast?_concat, eq_self_iff_true, eq_self_iff_true]
  | false =>
      refine ⟨fun last => ?_, fun wrong => absurd wrong Bool.false_ne_true⟩
      obtain ⟨names, c, split⟩ : ∃ names c, t.names = names ++ [c] := by
        rcases List.eq_nil_or_concat t.names with empty | ⟨names, c, split⟩
        · rw [proper.root empty] at tail
          cases tail
        · exact ⟨names, c, by rw [split, List.concat_eq_append]⟩
      have name := proper.names c (by simp [split])
      obtain ⟨d, x, rfl⟩ : ∃ d x, c = d ++ [x] := by
        rcases List.eq_nil_or_concat c with empty | ⟨d, x, rest⟩
        · exact absurd empty name.some_
        · exact ⟨d, x, by rw [rest, List.concat_eq_append]⟩
      rw [if_neg Bool.false_ne_true, List.append_nil, split, pathOf_concat, ← List.cons_append, ← List.append_assoc,
        List.getLast?_concat] at last
      obtain rfl := Option.some.inj last
      exact absurd (by simp) name.noSlash

theorem enter (proper : t.Proper) (some_ : c ≠ []) (noSlash : slash ∉ c) (noNul : 0 ∉ c) : (t.enter c).Proper := by
  unfold Text.enter
  split
  · exact proper
  · next noDot =>
    split
    · exact ⟨fun d member => proper.names d (List.dropLast_subset _ member), fun _ => rfl⟩
    · next noDots =>
      refine ⟨fun d member => ?_, fun empty => absurd empty (by simp)⟩
      rcases List.mem_append.mp member with member | member
      · exact proper.names d member
      · obtain rfl := List.mem_singleton.mp member
        exact ⟨some_, noSlash, noNul, noDot, noDots⟩

end Text.Proper

structure Shows (w : Work) (t : Text) : Prop where
  chars : w.buf.read 0 w.pos = t.chars
  short : w.pos ≤ 254
  proper : t.Proper

variable {w : Work} {t : Text} {c p : List UInt8} {buf : Bytes 256}

theorem takeName_eq {rel : List UInt8} {ci : Nat} {comp : Bytes 256} (small : ci ≤ 255) :
    takeName rel ci comp =
      some (rel.drop ((rel.takeWhile (· != slash)).take (255 - ci)).length, ci + ((rel.takeWhile (· != slash)).take (255 - ci)).length,
        comp.write ci ((rel.takeWhile (· != slash)).take (255 - ci))) := by
  induction rel generalizing ci comp with
  | nil => simp [takeName]
  | cons c rel ih =>
      rw [takeName]
      split
      · next stop =>
          have none : ((c :: rel).takeWhile (· != slash)).take (255 - ci) = [] := by
            rcases stop with rfl | full
            · rw [List.takeWhile_cons_of_neg (by simp), List.take_nil]
            · rw [Nat.sub_eq_zero_of_le full, List.take_zero]
          rw [none]
          simp
      · next more =>
          obtain ⟨other, room⟩ := not_or.mp more
          obtain ⟨k, gap⟩ : ∃ k, 255 - ci = k + 1 := ⟨255 - ci - 1, by omega⟩
          have next_ : 255 - (ci + 1) = k := by omega
          rw [List.takeWhile_cons_of_pos (by simpa using other), gap, List.take_succ_cons, Bytes.store_of_lt (by omega)]
          simp only [Option.bind_eq_bind, Option.bind_some]
          rw [ih (by omega), next_, Bytes.write_cons, List.length_cons, List.drop_succ_cons]
          congr 3
          omega

theorem backUp_eq (small : p.length + 1 + c.length ≤ 256) (chars : buf.read 0 (p.length + 1 + c.length) = p ++ slash :: c) (noSlash : slash ∉ c) :
    backUp buf (p.length + 1 + c.length) = some (p.length + 1) := by
  induction c using List.reverseRecOn with
  | nil =>
      rw [List.length_nil, Nat.add_zero, Bytes.read_concat, Nat.zero_add] at chars
      have last : buf.get p.length = slash := by
        have := (List.append_inj' chars rfl).2
        simpa using this
      rw [List.length_nil, Nat.add_zero, backUp, Bytes.load_of_lt (by rw [List.length_nil] at small; omega)]
      simp only [Option.bind_eq_bind, Option.bind_some]
      rw [if_pos last]
      rfl
  | append_singleton c x ih =>
      rw [List.length_append, List.length_singleton, ← Nat.add_assoc] at chars small ⊢
      rw [Bytes.read_concat, Nat.zero_add, ← List.cons_append, ← List.append_assoc] at chars
      obtain ⟨before, last⟩ := List.append_inj' chars rfl
      have other : buf.get (p.length + 1 + c.length) ≠ slash := by
        rw [List.singleton_inj.mp last]
        rintro rfl
        exact noSlash (by simp)
      rw [backUp, Bytes.load_of_lt (by omega)]
      simp only [Option.bind_eq_bind, Option.bind_some]
      rw [if_neg other]
      exact ih (by omega) before (fun member => noSlash (by simp [member]))

namespace Shows

theorem length (shows : Shows w t) : t.chars.length = w.pos := by rw [← shows.chars, Bytes.length_read]

theorem pos_pos (shows : Shows w t) : 0 < w.pos := by
  rw [← shows.length, List.length_pos_iff]
  intro empty
  have head := shows.proper.head?_chars
  rw [empty] at head
  cases head

theorem last_eq (shows : Shows w t) : w.buf.get (w.pos - 1) = slash ↔ t.trailing = true := by
  obtain ⟨k, length⟩ : ∃ k, w.pos = k + 1 := ⟨w.pos - 1, by have := shows.pos_pos; omega⟩
  have chars := shows.chars
  rw [length, Bytes.read_concat, Nat.zero_add] at chars
  rw [length, Nat.add_sub_cancel, ← shows.proper.getLast?_chars, ← chars, List.getLast?_concat, Option.some.injEq]

theorem length_concat (shows : Shows w t) (c : List UInt8) :
    (pathOf (t.names ++ [c])).length = w.pos + (!t.trailing).toNat + c.length := by
  have length := shows.length
  unfold Text.chars at length
  rw [List.length_append] at length
  rw [pathOf_concat, List.length_append, List.length_cons]
  cases tail : t.trailing <;> rw [tail] at length <;> simp at length ⊢ <;> omega

theorem append (shows : Shows w t) (name : Name c) (comp : w.comp.read 0 c.length = c) :
    ∃ v, w.append c.length = some (decide ((pathOf (t.names ++ [c])).length ≤ 254), v) ∧
      Shows v (if (pathOf (t.names ++ [c])).length ≤ 254 then ⟨t.names ++ [c], false⟩ else t) := by
  have length := shows.length_concat c
  have small := shows.short
  have need : (decide (0 < w.pos) && w.buf.get (w.pos - 1) != slash) = !t.trailing := by
    rw [decide_eq_true shows.pos_pos, Bool.true_and, Bool.eq_iff_iff, bne_iff_ne, ne_eq, shows.last_eq, Bool.not_eq_true', Bool.not_eq_true]
  rw [Work.append, Bytes.load_of_lt (by omega)]
  simp only [Option.bind_eq_bind, Option.bind_some, Option.pure_def, need]
  by_cases full : 255 ≤ w.pos + (!t.trailing).toNat + c.length
  · have long : ¬(pathOf (t.names ++ [c])).length ≤ 254 := by omega
    refine ⟨w, ?_, by rw [if_neg long]; exact shows⟩
    rw [if_pos full, decide_eq_false long]
  · have fits : (pathOf (t.names ++ [c])).length ≤ 254 := by omega
    -- the separator and the name, as one write
    let tail := (if t.trailing then [] else [slash]) ++ c
    have tailLength : tail.length = (!t.trailing).toNat + c.length := by
      rw [List.length_append]
      cases t.trailing <;> rfl
    have separator (k : Bytes 256 → Option (Bool × Work)) : (if (!t.trailing) = true then (w.buf.store w.pos slash).bind k else k w.buf) =
        k (w.buf.write w.pos (if t.trailing then [] else [slash])) := by
      cases t.trailing with
      | true => simp
      | false => rw [if_pos (by rfl), Bytes.store_of_lt (by omega)]; rfl
    have behind : (w.buf.write w.pos (if t.trailing then [] else [slash])).write (w.pos + (!t.trailing).toNat) c = w.buf.write w.pos tail := by
      rw [← Bytes.write_append]
      cases t.trailing <;> rfl
    refine ⟨{ w with buf := w.buf.write w.pos tail, pos := w.pos + (!t.trailing).toNat + c.length }, ?_, ?_⟩
    · rw [if_neg full, decide_eq_true fits]
      refine (separator _).trans ?_
      rw [Bytes.copyBytes_eq _ _ (by omega) (by omega), comp, behind]
      rfl
    · rw [if_pos fits]
      constructor
      · change (w.buf.write w.pos tail).read 0 (w.pos + (!t.trailing).toNat + c.length) = _
        rw [Nat.add_assoc, ← tailLength, Bytes.read_write_behind _ (by omega), shows.chars, Text.chars, Text.chars]
        dsimp only
        rw [pathOf_concat, if_neg Bool.false_ne_true, List.append_nil]
        cases before : t.trailing <;> simp [tail, before]
      · change w.pos + (!t.trailing).toNat + c.length ≤ 254
        omega
      · have proper := shows.proper.enter name.some_ name.noSlash name.noNul
        rwa [Text.enter, if_neg name.noDot, if_neg name.noDots] at proper

theorem shorten (shows : Shows w t) {u : Text} {rest : List UInt8} (chars : t.chars = u.chars ++ rest) (proper : u.Proper) :
    Shows { w with pos := u.chars.length } u := by
  have length := shows.length
  rw [chars, List.length_append] at length
  refine ⟨?_, by have := shows.short; change u.chars.length ≤ 254; omega, proper⟩
  change w.buf.read 0 u.chars.length = u.chars
  have whole := shows.chars
  rw [chars] at whole
  rw [← @Bytes.read_take _ w.buf 0 _ w.pos (by omega), whole, List.take_left]

theorem dots (shows : Shows w t) (long : 1 < w.pos) :
    ∃ pos, backUp w.buf (w.pos - 1) = some pos ∧ Shows { w with pos := pos } ⟨t.names.dropLast, true⟩ := by
  obtain ⟨names, c, split⟩ : ∃ names c, t.names = names ++ [c] := by
    rcases List.eq_nil_or_concat t.names with empty | ⟨names, c, split⟩
    · have length := shows.length
      rw [Text.chars, empty, shows.proper.root empty] at length
      change 1 = w.pos at length
      omega
    · exact ⟨names, c, by rw [split, List.concat_eq_append]⟩
  have name := shows.proper.names c (by simp [split])
  have proper : Text.Proper ⟨names, true⟩ := ⟨fun d member => shows.proper.names d (by simp [split, List.mem_append.mpr (.inl member)]), fun _ => rfl⟩
  -- what is left of the last name once its last character, or the slash behind it, is gone
  obtain ⟨d, x, chars, noSlash⟩ : ∃ d x, t.chars = pathOf names ++ slash :: d ++ [x] ∧ slash ∉ d := by
    rw [Text.chars, split, pathOf_concat]
    cases t.trailing with
    | true => exact ⟨c, slash, rfl, name.noSlash⟩
    | false =>
        rcases List.eq_nil_or_concat c with empty | ⟨d, x, rest⟩
        · exact absurd empty name.some_
        · rw [List.concat_eq_append] at rest
          refine ⟨d, x, by simp [rest], fun member => name.noSlash ?_⟩
          rw [rest]
          exact List.mem_append_left _ member
  have length := shows.length
  have small := shows.short
  rw [chars] at length
  simp only [List.length_append, List.length_cons, List.length_nil] at length
  have before : w.buf.read 0 ((pathOf names).length + 1 + d.length) = pathOf names ++ slash :: d := by
    have whole := shows.chars
    rw [chars] at whole
    rw [← @Bytes.read_take _ w.buf 0 _ w.pos (by omega), whole, List.take_left']
    simp only [List.length_append, List.length_cons]
    omega
  have stop := backUp_eq (by omega) before noSlash
  rw [show (pathOf names).length + 1 + d.length = w.pos - 1 by omega] at stop
  rw [split, List.dropLast_concat]
  refine ⟨_, stop, ?_⟩
  have rest : t.chars = Text.chars ⟨names, true⟩ ++ (d ++ [x]) := by
    rw [chars]
    simp [Text.chars]
  have shorter := shows.shorten rest proper
  simpa [Text.chars] using shorter

theorem component (shows : Shows w t) (some_ : c ≠ []) (noSlash : slash ∉ c) (noNul : 0 ∉ c)
    (comp : w.comp.read 0 c.length = c) :
    ∃ v, w.component c.length = some (decide ¬TooLong t.names c, v) ∧ Shows v (if TooLong t.names c then t else t.enter c) := by
  have first (length : c.length = 1) : w.comp.get 0 = dot ↔ c = [dot] := by
    rw [length] at comp
    rw [← comp]
    simp [Bytes.read]
  have both (length : c.length = 2) : (w.comp.get 0 = dot ∧ w.comp.get 1 = dot) ↔ c = [dot, dot] := by
    rw [length] at comp
    rw [← comp]
    simp [Bytes.read, List.range_succ]
  have isDot : (c.length = 1 ∧ w.comp.get 0 = dot) ↔ c = [dot] :=
    ⟨fun cond => (first cond.1).mp cond.2, fun same => ⟨by rw [same]; rfl, (first (by rw [same]; rfl)).mpr same⟩⟩
  have isDots : (c.length = 2 ∧ w.comp.get 0 = dot ∧ w.comp.get 1 = dot) ↔ c = [dot, dot] :=
    ⟨fun cond => (both cond.1).mp cond.2, fun same => ⟨by rw [same]; rfl, (both (by rw [same]; rfl)).mpr same⟩⟩
  rw [Work.component, Bytes.load_of_lt (by decide), Bytes.load_of_lt (by decide)]
  simp only [Option.bind_eq_bind, Option.bind_some, Option.pure_def, isDot, isDots]
  by_cases noDot : c = [dot]
  · have short : ¬TooLong t.names c := fun long => long.1 noDot
    rw [if_pos noDot, if_neg short, decide_eq_true short, Text.enter, if_pos noDot]
    exact ⟨w, rfl, shows⟩
  · rw [if_neg noDot]
    by_cases noDots : c = [dot, dot]
    · have short : ¬TooLong t.names c := fun long => long.2.1 noDots
      rw [if_pos noDots, if_neg short, decide_eq_true short, Text.enter, if_neg noDot, if_pos noDots]
      by_cases long : 1 < w.pos
      · obtain ⟨pos, stop, shorter⟩ := shows.dots long
        rw [if_pos long, stop]
        exact ⟨_, rfl, shorter⟩
      · rw [if_neg long]
        refine ⟨w, rfl, ?_⟩
        -- only the root is that short
        have length := shows.length
        obtain ⟨names, trailing⟩ := t
        cases names with
        | nil =>
            have root := shows.proper.root rfl
            dsimp only at root
            rw [List.dropLast_nil, ← root]
            exact shows
        | cons d names =>
            have := List.length_pos_iff.mpr (shows.proper.names d (by simp)).some_
            simp [Text.chars, pathOf] at length
            omega
    · have meaning : TooLong t.names c ↔ ¬(pathOf (t.names ++ [c])).length ≤ 254 := by
        unfold TooLong
        rw [Nat.not_le]
        exact ⟨fun long => long.2.2, fun long => ⟨noDot, noDots, long⟩⟩
      rw [if_neg noDots]
      obtain ⟨v, run, after⟩ := shows.append ⟨some_, noSlash, noNul, noDot, noDots⟩ comp
      refine ⟨v, by rw [run]; congr 2; rw [decide_eq_decide, meaning, not_not], ?_⟩
      by_cases long : TooLong t.names c
      · rw [if_pos long]
        rwa [if_neg (meaning.mp long)] at after
      · rw [if_neg long, Text.enter, if_neg noDot, if_neg noDots]
        rwa [if_pos (not_not.mp (meaning.not.mp long))] at after

end Shows

theorem tooLong_of_length (t : Text) (many : 255 ≤ c.length) : TooLong t.names c := by
  refine ⟨fun same => ?_, fun same => ?_, ?_⟩
  · rw [same] at many
    simp at many
  · rw [same] at many
    simp at many
  · rw [pathOf_concat, List.length_append, List.length_cons]
    omega

theorem tooLong_take (t : Text) (c : List UInt8) : TooLong t.names (c.take 255) ↔ TooLong t.names c := by
  rcases Nat.lt_or_ge c.length 255 with short | long
  · rw [List.take_of_length_le short.le]
  · have length : (c.take 255).length = 255 := by rw [List.length_take, Nat.min_eq_left long]
    exact iff_of_true (tooLong_of_length t length.ge) (tooLong_of_length t long)

theorem walk_eq {rel : List UInt8} {fuel : Nat} (shows : Shows w t) (noNul : 0 ∉ rel) (enough : rel.length < fuel) :
    ∃ v, walk fuel rel w = some v ∧ Shows v (t.resolve (parts slash rel)) := by
  induction fuel generalizing rel w t with
  | zero => omega
  | succ fuel ih =>
      rw [walk, ← parts_dropWhile]
      cases rest : rel.dropWhile (· == slash) with
      | nil => exact ⟨w, rfl, shows⟩
      | cons c tail =>
          have other : c ≠ slash := by simpa using dropWhile_cons_not rest
          have sub : (c :: tail).Sublist rel := rest ▸ List.dropWhile_sublist _
          rw [parts_cons other]
          dsimp only
          obtain ⟨name, named⟩ : ∃ name, name = (c :: tail).takeWhile (· != slash) := ⟨_, rfl⟩
          have head : name.take 255 ≠ [] := by
            rw [named, List.takeWhile_cons_of_pos (by simpa using other)]
            exact List.cons_ne_nil _ _
          have noSlash : slash ∉ name := named ▸ not_mem_takeWhile
          have plain : 0 ∉ name := fun member => noNul (sub.subset ((List.takeWhile_sublist _).subset (named ▸ member)))
          rw [takeName_eq (by omega), ← named, Nat.sub_zero, Nat.zero_add]
          simp only [Option.bind_eq_bind, Option.bind_some]
          have cut : (name.take 255).length ≤ 255 := by rw [List.length_take]; omega
          rw [Bytes.store_of_lt (by omega)]
          simp only [Option.bind_some]
          have copied : ((w.comp.write 0 (name.take 255)).write (name.take 255).length [0]).read 0 (name.take 255).length = name.take 255 := by
            rw [Bytes.read_write_disjoint _ _ (.inl (by omega)), Bytes.read_write_same _ _ _ (by omega)]
          have same : Shows { w with comp := (w.comp.write 0 (name.take 255)).write (name.take 255).length [0] } t :=
            ⟨shows.chars, shows.short, shows.proper⟩
          obtain ⟨v, run, after⟩ := same.component head (fun member => noSlash (List.take_subset _ _ member))
            (fun member => plain (List.take_subset _ _ member)) copied
          rw [run]
          simp only [Option.bind_some, decide_eq_true_eq, tooLong_take] at after ⊢
          rw [Text.resolve]
          by_cases long : TooLong t.names name
          · rw [if_neg (not_not.mpr long), if_pos long]
            rw [if_pos long] at after
            exact ⟨v, rfl, after⟩
          · have short : name.length ≤ 255 := by
              by_contra many
              exact long (tooLong_of_length t (by omega))
            have drop : (c :: tail).drop name.length = (c :: tail).dropWhile (· != slash) := by
              conv_lhs => rw [← List.takeWhile_append_dropWhile (p := (· != slash)) (l := c :: tail), ← named]
              rw [List.drop_left]
            rw [if_pos long, if_neg long, List.take_of_length_le short, drop]
            rw [if_neg long, List.take_of_length_le short] at after
            refine ih after (fun member => noNul (sub.subset ((List.dropWhile_sublist _).subset member))) ?_
            have less : ((c :: tail).dropWhile (· != slash)).length < rel.length := by
              rw [← drop, List.length_drop]
              have := sub.length_le
              have := List.length_pos_iff.mpr head
              rw [List.length_take] at this
              simp only [List.length_cons] at *
              omega
            omega

structure Stored (b : Bytes 256) (t : Text) : Prop where
  holds : b.Holds t.chars
  proper : t.Proper
  short : t.chars.length ≤ 254

def Text.origin (t : Text) (rel : List UInt8) : Text := if rel.head? = some slash then ⟨[], true⟩ else t

variable {cwd next out : Bytes 256} {rel : List UInt8}

theorem proper_root : Text.Proper ⟨[], true⟩ := ⟨fun _ member => absurd member List.not_mem_nil, fun _ => rfl⟩

theorem origin_names (proper : t.Proper) (rel : List UInt8) : (t.origin rel).names = origin t.chars rel := by
  unfold Text.origin origin
  split
  · rfl
  · exact proper.parts_chars.symm

theorem base_eq (stored : Stored cwd t) (rel : List UInt8) (w : Work) :
    ∃ rest v, base cwd rel w = some (rest, v) ∧ rest.Sublist rel ∧ parts slash rest = parts slash rel ∧ Shows v (t.origin rel) := by
  unfold base Text.origin
  by_cases absolute : rel.head? = some slash
  · rw [if_pos absolute, if_pos absolute, Bytes.store_of_lt (by decide)]
    refine ⟨rel.tail, _, rfl, List.tail_sublist rel, ?_, ?_, by simp, proper_root⟩
    · obtain ⟨rest, rfl⟩ := List.head?_eq_some_iff.mp absolute
      rw [List.tail_cons, parts_cons_self]
    · exact Bytes.read_write_same w.buf 0 [slash] (by decide)
  · have whole : t.chars.take 255 = t.chars := List.take_of_length_le (stored.short.trans (by decide))
    rw [if_neg absolute, if_neg absolute, Bytes.copyString_eq stored.holds (by rw [whole]; have := stored.short; omega), whole]
    refine ⟨rel, _, rfl, List.Sublist.refl rel, rfl, ?_, stored.short, stored.proper⟩
    exact Bytes.read_write_same w.buf 0 t.chars (by have := stored.short; omega)

theorem normalizePath_stored (stored : Stored cwd t) (some_ : rel ≠ []) (noNul : 0 ∉ rel) (w : Work) (out : Bytes 256) :
    ∃ result, normalizePath cwd rel w out = some result ∧ Stored result ((t.origin rel).resolve (parts slash rel)) := by
  obtain ⟨rest, v, start, sub, same, shows⟩ := base_eq stored rel w
  obtain ⟨u, run, after⟩ := walk_eq shows (fun member => noNul (sub.subset member)) (Nat.lt_succ_self rest.length)
  rw [same] at after
  have length := after.length
  have short := after.short
  have plain := after.proper.noNul
  have least : min (u.pos + 1) 255 = u.pos + 1 := by omega
  have copied : (u.buf.write u.pos [0]).read 0 (u.pos + 1) = ((t.origin rel).resolve (parts slash rel)).chars ++ [0] := by
    rw [← after.chars]
    exact Bytes.read_write_behind u.buf (s := [0]) (by rw [List.length_singleton]; omega)
  rw [normalizePath, if_neg some_, start]
  simp only [Option.bind_eq_bind, Option.bind_some]
  rw [run]
  simp only [Option.bind_some]
  rw [Bytes.store_of_lt (by omega), least]
  simp only [Option.bind_some]
  rw [Bytes.copyBytes_eq _ _ (by omega) (by omega), copied]
  simp only [Option.bind_some]
  rw [Bytes.store_of_lt (by decide)]
  refine ⟨_, rfl, ?_, after.proper, by omega⟩
  rw [← Bytes.write_append, Nat.zero_add]
  exact (Bytes.holds_write (by omega) plain).write_behind (by omega) [0]

theorem normalizePath_nil (cwd : Bytes 256) (w : Work) (out : Bytes 256) :
    ∃ result, normalizePath cwd [] w out = some result ∧ Stored result ⟨[], true⟩ := by
  rw [normalizePath, if_pos rfl, Bytes.store_of_lt (by decide)]
  simp only [Option.bind_eq_bind, Option.bind_some]
  rw [Bytes.store_of_lt (by decide)]
  exact ⟨_, rfl, Bytes.holds_write (s := [slash]) (by decide) (by decide), proper_root, by decide⟩

theorem cd_stored (stored : Stored cwd t) (noNul : 0 ∉ rel) (w : Work) (out : Bytes 256) : ∃ next u, cd cwd rel w out = some next ∧ Stored next u := by
  obtain ⟨result, u, run, after⟩ : ∃ result u, normalizePath cwd rel w out = some result ∧ Stored result u := by
    by_cases empty : rel = []
    · obtain ⟨result, run, after⟩ := normalizePath_nil cwd w out
      exact ⟨result, _, by rw [empty, run], after⟩
    · obtain ⟨result, run, after⟩ := normalizePath_stored stored empty noNul w out
      exact ⟨result, _, run, after⟩
  have short := after.short
  have whole : u.chars.take 256 = u.chars := List.take_of_length_le (by omega)
  rw [cd, run]
  simp only [Option.bind_eq_bind, Option.bind_some]
  rw [Bytes.copyString_eq after.holds (by rw [whole]; omega), whole]
  simp only [Option.bind_some]
  rw [Bytes.store_of_lt (by omega)]
  exact ⟨_, u, rfl, Bytes.holds_write (by omega) after.proper.noNul, after.proper, short⟩

theorem root_holds : root.Holds [slash] := ⟨by decide, by decide, by decide, by decide⟩

theorem stored_root : Stored root ⟨[], true⟩ := ⟨root_holds, proper_root, by decide⟩

theorem stored_of_reached (reached : Reached cwd) : ∃ t, Stored cwd t := by
  induction reached with
  | root => exact ⟨_, stored_root⟩
  | cd _ noNul run ih =>
      obtain ⟨t, stored⟩ := ih
      obtain ⟨next, u, same, after⟩ := cd_stored stored noNul _ _
      obtain rfl := Option.some.inj (run.symm.trans same)
      exact ⟨u, after⟩

/-- The path is absolute and its names are those of the current directory and the argument, resolved in order. -/
theorem normalizePath_resolves (reached : Reached cwd) (some_ : rel ≠ []) (noNul : 0 ∉ rel) (w : Work) (out : Bytes 256) :
    ∃ here path result, cwd.Holds here ∧ normalizePath cwd rel w out = some result ∧ result.Holds path ∧ path.length ≤ 254 ∧
      path.head? = some slash ∧ parts slash path = resolve (origin here rel) (parts slash rel) := by
  obtain ⟨t, stored⟩ := stored_of_reached reached
  obtain ⟨result, run, after⟩ := normalizePath_stored stored some_ noNul w out
  refine ⟨t.chars, _, result, stored.holds, run, after.holds, after.short, after.proper.head?_chars, ?_⟩
  rw [after.proper.parts_chars, Text.resolve_names, origin_names stored.proper]

theorem normalizePath_resolves_root : ∃ here path result, root.Holds here ∧
    normalizePath root [0x61, slash, dot, dot, slash, 0x62, slash, slash, 0x63] ⟨.zero, .zero, 0⟩ .zero = some result ∧ result.Holds path ∧
      path.length ≤ 254 ∧ path.head? = some slash ∧ parts slash path =
        resolve (origin here [0x61, slash, dot, dot, slash, 0x62, slash, slash, 0x63])
          (parts slash [0x61, slash, dot, dot, slash, 0x62, slash, slash, 0x63]) :=
  normalizePath_resolves .root (List.cons_ne_nil _ _) (by decide) ⟨.zero, .zero, 0⟩ .zero

end SwiftBSD.Proof.Userland
