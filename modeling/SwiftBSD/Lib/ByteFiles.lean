import Mathlib.Data.List.Basic
import Mathlib.Logic.Function.Basic

namespace SwiftBSD.Lib

variable {ι κ α : Type}

/-- `old` with `new` over its bytes from `pos` on. -/
def splice (old : List α) (pos : Nat) (new : List α) : List α := old.take pos ++ new ++ old.drop (pos + new.length)

theorem length_splice {old new : List α} {pos : Nat} (start : pos ≤ old.length) :
    (splice old pos new).length = max old.length (pos + new.length) := by
  simp only [splice, List.length_append, List.length_take, List.length_drop]
  omega

structure ByteFiles (ι κ α : Type) where
  bytes : ι → Option (List α)
  cursor : κ → Option (ι × Nat)

inductive FileEvent (ι κ α : Type)
  | make (i : ι)
  | cut (i : ι)
  | drop (i : ι)
  | start (k : κ) (i : ι)
  | stop (k : κ)
  | read (k : κ) (n : Nat) (out : List α)
  | write (k : κ) (i : ι) (data : List α)

namespace ByteFiles
variable [DecidableEq ι] [DecidableEq κ] {F G H : ByteFiles ι κ α} {e : FileEvent ι κ α} {es fs : List (FileEvent ι κ α)} {i : ι} {k : κ}
  {bs : List α} {p : Nat}

def setBytes (F : ByteFiles ι κ α) (i : ι) (bs : Option (List α)) : ByteFiles ι κ α := { F with bytes := Function.update F.bytes i bs }

def setCursor (F : ByteFiles ι κ α) (k : κ) (c : Option (ι × Nat)) : ByteFiles ι κ α := { F with cursor := Function.update F.cursor k c }

omit [DecidableEq κ] in
@[simp] theorem setBytes_bytes (F : ByteFiles ι κ α) (i : ι) (bs : Option (List α)) :
    (F.setBytes i bs).bytes = Function.update F.bytes i bs := rfl

omit [DecidableEq κ] in
@[simp] theorem setBytes_cursor (F : ByteFiles ι κ α) (i : ι) (bs : Option (List α)) : (F.setBytes i bs).cursor = F.cursor := rfl

omit [DecidableEq ι] in
@[simp] theorem setCursor_bytes (F : ByteFiles ι κ α) (k : κ) (c : Option (ι × Nat)) : (F.setCursor k c).bytes = F.bytes := rfl

omit [DecidableEq ι] in
@[simp] theorem setCursor_cursor (F : ByteFiles ι κ α) (k : κ) (c : Option (ι × Nat)) :
    (F.setCursor k c).cursor = Function.update F.cursor k c := rfl

def Idle (F : ByteFiles ι κ α) (i : ι) : Prop := ∀ k p, F.cursor k ≠ some (i, p)

inductive Step (F : ByteFiles ι κ α) : FileEvent ι κ α → ByteFiles ι κ α → Prop
  | make {i : ι} (none : F.bytes i = none) : Step F (.make i) (F.setBytes i (some []))
  | cut {i : ι} {bs : List α} (file : F.bytes i = some bs) (idle : F.Idle i) : Step F (.cut i) (F.setBytes i (some []))
  | drop {i : ι} {bs : List α} (file : F.bytes i = some bs) (idle : F.Idle i) : Step F (.drop i) (F.setBytes i none)
  | start {k : κ} {i : ι} {bs : List α} (file : F.bytes i = some bs) (free : F.cursor k = none) :
      Step F (.start k i) (F.setCursor k (some (i, 0)))
  | stop {k : κ} : Step F (.stop k) (F.setCursor k none)
  | read {k : κ} {i : ι} {p n : Nat} {bs : List α} (here : F.cursor k = some (i, p)) (file : F.bytes i = some bs) :
      Step F (.read k n ((bs.drop p).take n)) (F.setCursor k (some (i, p + ((bs.drop p).take n).length)))
  | write {k : κ} {i : ι} {p : Nat} {bs data : List α} (here : F.cursor k = some (i, p)) (file : F.bytes i = some bs) :
      Step F (.write k i data) ((F.setBytes i (some (splice bs p data))).setCursor k (some (i, p + data.length)))

inductive Run : ByteFiles ι κ α → List (FileEvent ι κ α) → ByteFiles ι κ α → Prop
  | nil {F : ByteFiles ι κ α} : Run F [] F
  | cons {F G H : ByteFiles ι κ α} {e : FileEvent ι κ α} {es : List (FileEvent ι κ α)} (step : Step F e G) (rest : Run G es H) :
      Run F (e :: es) H

theorem Step.run (step : Step F e G) : Run F [e] G := .cons step .nil

theorem Run.append (first : Run F es G) (second : Run G fs H) : Run F (es ++ fs) H := by
  induction first with
  | nil => exact second
  | cons step _ ih => exact .cons step (ih second)

theorem Step.read_out {n : Nat} {out : List α} (step : Step F (.read k n out) G) :
    ∃ i p bs, F.cursor k = some (i, p) ∧ F.bytes i = some bs ∧ out = (bs.drop p).take n := by
  generalize event : FileEvent.read k n out = e at step
  cases step with
  | read here file =>
      cases event
      exact ⟨_, _, _, here, file, rfl⟩
  | _ => cases event

theorem Step.read_at {p n : Nat} {bs out : List α} (step : Step F (.read k n out) G) (here : F.cursor k = some (i, p))
    (file : F.bytes i = some bs) : out = (bs.drop p).take n ∧ G.bytes = F.bytes ∧ G.cursor k = some (i, p + out.length) := by
  cases step with
  | read here' file' =>
      obtain ⟨rfl, rfl⟩ := Prod.mk.inj (Option.some.inj (here.symm.trans here'))
      obtain rfl := Option.some.inj (file.symm.trans file')
      exact ⟨rfl, rfl, Function.update_self _ _ _⟩

theorem Step.started (step : Step F (.start k i) G) : G.bytes = F.bytes ∧ G.cursor k = some (i, 0) := by
  generalize event : (FileEvent.start k i : FileEvent ι κ α) = e at step
  cases step with
  | start =>
      cases event
      exact ⟨rfl, Function.update_self _ _ _⟩
  | _ => cases event

theorem Run.single (run : Run F [e] G) : Step F e G := by
  cases run with
  | cons step rest =>
      cases rest
      exact step

/-- Every cursor is on a file, and not behind its end. -/
def Good (F : ByteFiles ι κ α) : Prop := ∀ k i p, F.cursor k = some (i, p) → ∃ bs, F.bytes i = some bs ∧ p ≤ bs.length

omit [DecidableEq κ] in
theorem Good.setBytes (good : F.Good) (inside : ∀ k p, F.cursor k = some (i, p) → p ≤ bs.length) : (F.setBytes i (some bs)).Good := by
  intro k j p here
  by_cases same : j = i
  · subst same
    exact ⟨bs, Function.update_self _ _ _, inside k p here⟩
  · obtain ⟨old, file, bound⟩ := good k j p here
    exact ⟨old, (Function.update_of_ne same _ _).trans file, bound⟩

omit [DecidableEq ι] in
theorem Good.setCursor {c : Option (ι × Nat)} (good : F.Good) (inside : ∀ i p, c = some (i, p) → ∃ bs, F.bytes i = some bs ∧ p ≤ bs.length) :
    (F.setCursor k c).Good := by
  intro k' i p here
  rw [setCursor_cursor] at here
  by_cases same : k' = k
  · subst same
    rw [Function.update_self] at here
    exact inside i p here
  · rw [Function.update_of_ne same] at here
    exact good k' i p here

theorem Step.good (step : Step F e G) (good : F.Good) : G.Good := by
  cases step with
  | @make i none =>
      refine good.setBytes fun k p here => ?_
      obtain ⟨bs, file, -⟩ := good k i p here
      cases none.symm.trans file
  | cut _ idle => exact good.setBytes fun k p here => absurd here (idle k p)
  | @drop i _ _ idle =>
      intro k j p here
      have other : j ≠ i := by
        rintro rfl
        exact idle k p here
      obtain ⟨old, file, bound⟩ := good k j p here
      exact ⟨old, (Function.update_of_ne other _ _).trans file, bound⟩
  | start file =>
      refine good.setCursor ?_
      rintro _ _ ⟨⟩
      exact ⟨_, file, Nat.zero_le _⟩
  | stop => exact good.setCursor nofun
  | @read k i p n bs here file =>
      refine good.setCursor ?_
      rintro _ _ ⟨⟩
      obtain ⟨old, file', bound⟩ := good k i p here
      obtain rfl := Option.some.inj (file.symm.trans file')
      refine ⟨bs, file, ?_⟩
      rw [List.length_take, List.length_drop]
      omega
  | @write k i p bs data here file =>
      have length (q : Nat) (k' : κ) (there : F.cursor k' = some (i, q)) : p ≤ bs.length ∧ q ≤ bs.length := by
        obtain ⟨old, file', bound⟩ := good k i p here
        obtain ⟨old', file'', bound'⟩ := good k' i q there
        obtain rfl := Option.some.inj (file.symm.trans file')
        obtain rfl := Option.some.inj (file.symm.trans file'')
        exact ⟨bound, bound'⟩
      refine (good.setBytes fun k' q there => ?_).setCursor ?_
      · have := length q k' there
        rw [length_splice this.1]
        omega
      · rintro _ _ ⟨⟩
        refine ⟨_, Function.update_self _ _ _, ?_⟩
        rw [length_splice (length p k here).1]
        exact Nat.le_max_right _ _

theorem Run.good (run : Run F es G) (good : F.Good) : G.Good := by
  induction run with
  | nil => exact good
  | cons step _ ih => exact ih (step.good good)

/-- Nothing is written to file `i`, and cursor `k` stays. -/
def Quiet (i : ι) (k : κ) : FileEvent ι κ α → Prop
  | .write _ j _ => j ≠ i
  | .stop k' => k' ≠ k
  | _ => True

/-- The bytes that a run reads through one cursor. -/
def heard (k : κ) : List (FileEvent ι κ α) → List α
  | [] => []
  | .read k' _ out :: es => if k' = k then out ++ heard k es else heard k es
  | _ :: es => heard k es

omit [DecidableEq ι] in
theorem heard_append (k : κ) (es fs : List (FileEvent ι κ α)) : heard k (es ++ fs) = heard k es ++ heard k fs := by
  induction es with
  | nil => rfl
  | cons e es ih =>
      cases e with
      | read k' n out =>
          simp only [List.cons_append, heard, ih]
          split
          · rw [List.append_assoc]
          · rfl
      | _ => exact ih

/-- The rest of the file is what is heard next, and then what is left. -/
structure Hears (F : ByteFiles ι κ α) (k : κ) (i : ι) (bs rest : List α) : Prop where
  file : F.bytes i = some bs
  here : ∃ p, F.cursor k = some (i, p) ∧ bs.drop p = rest

theorem Step.hears {rest : List α} (step : Step F e G) (quiet : Quiet i k e) (hears : Hears F k i bs rest) :
    ∃ rest', Hears G k i bs rest' ∧ rest = heard k [e] ++ rest' := by
  obtain ⟨file, p, here, rfl⟩ := hears
  cases step with
  | @make j none =>
      have other : i ≠ j := by
        rintro rfl
        cases none.symm.trans file
      exact ⟨_, ⟨(Function.update_of_ne other _ _).trans file, p, here, rfl⟩, rfl⟩
  | @cut j _ _ idle | @drop j _ _ idle =>
      have other : i ≠ j := by
        rintro rfl
        exact idle k p here
      exact ⟨_, ⟨(Function.update_of_ne other _ _).trans file, p, here, rfl⟩, rfl⟩
  | @start k' j _ _ free =>
      have other : k ≠ k' := by
        rintro rfl
        cases free.symm.trans here
      exact ⟨_, ⟨file, p, (Function.update_of_ne other _ _).trans here, rfl⟩, rfl⟩
  | stop => exact ⟨_, ⟨file, p, (Function.update_of_ne (Ne.symm quiet) _ _).trans here, rfl⟩, rfl⟩
  | @read k' j q n old here' file' =>
      by_cases same : k' = k
      · subst same
        obtain ⟨rfl, rfl⟩ := Prod.mk.inj (Option.some.inj (here.symm.trans here'))
        obtain rfl := Option.some.inj (file.symm.trans file')
        refine ⟨_, ⟨file, _, Function.update_self _ _ _, rfl⟩, ?_⟩
        rw [heard, if_pos rfl, heard, List.append_nil, ← List.drop_drop, List.length_take]
        by_cases short : n ≤ (bs.drop p).length
        · rw [Nat.min_eq_left short, List.take_append_drop]
        · rw [Nat.min_eq_right (by omega), List.take_of_length_le (by omega), List.drop_length, List.append_nil]
      · refine ⟨_, ⟨file, p, (Function.update_of_ne (Ne.symm same) _ _).trans here, rfl⟩, ?_⟩
        rw [heard, if_neg same, heard, List.nil_append]
  | @write k' j q old data here' file' =>
      have other : k ≠ k' := by
        rintro rfl
        obtain ⟨rfl, -⟩ := Prod.mk.inj (Option.some.inj (here.symm.trans here'))
        exact quiet rfl
      exact ⟨_, ⟨(Function.update_of_ne (Ne.symm quiet) _ _).trans file, p, (Function.update_of_ne other _ _).trans here, rfl⟩, rfl⟩

theorem Run.hears {rest : List α} (run : Run F es G) (quiet : ∀ e ∈ es, Quiet i k e) (hears : Hears F k i bs rest) :
    ∃ rest', Hears G k i bs rest' ∧ rest = heard k es ++ rest' := by
  induction run generalizing rest with
  | nil => exact ⟨rest, hears, rfl⟩
  | @cons F G H e es step _ ih =>
      obtain ⟨middle, hears', split⟩ := step.hears (quiet e List.mem_cons_self) hears
      obtain ⟨rest', hears'', split'⟩ := ih (fun e member => quiet e (List.mem_cons_of_mem _ member)) hears'
      refine ⟨rest', hears'', ?_⟩
      have cons : heard k (e :: es) = heard k [e] ++ heard k es := heard_append k [e] es
      rw [cons, List.append_assoc, ← split', split]

/-- Only cursor `k` writes to file `i`, and it stays. -/
def Alone (i : ι) (k : κ) : FileEvent ι κ α → Prop
  | .write k' j _ => j = i → k' = k
  | .stop k' => k' ≠ k
  | _ => True

/-- The bytes that a run writes through one cursor. -/
def told (k : κ) : List (FileEvent ι κ α) → List α
  | [] => []
  | .write k' _ data :: es => if k' = k then data ++ told k es else told k es
  | _ :: es => told k es

omit [DecidableEq ι] in
theorem told_append (k : κ) (es fs : List (FileEvent ι κ α)) : told k (es ++ fs) = told k es ++ told k fs := by
  induction es with
  | nil => rfl
  | cons e es ih =>
      cases e with
      | write k' i data =>
          simp only [List.cons_append, told, ih]
          split
          · rw [List.append_assoc]
          · rfl
      | _ => exact ih

structure AtEnd (F : ByteFiles ι κ α) (k : κ) (i : ι) (bs : List α) : Prop where
  file : F.bytes i = some bs
  here : F.cursor k = some (i, bs.length)

omit [DecidableEq ι] [DecidableEq κ] in
theorem splice_length (old new : List α) : splice old old.length new = old ++ new := by
  rw [splice, List.take_length, List.drop_eq_nil_of_le (Nat.le_add_right _ _), List.append_nil]

theorem Step.atEnd (step : Step F e G) (alone : Alone i k e) (atEnd : AtEnd F k i bs) : AtEnd G k i (bs ++ told k [e]) := by
  obtain ⟨file, here⟩ := atEnd
  have stay (silent : told k [e] = []) (file' : G.bytes i = some bs) (here' : G.cursor k = some (i, bs.length)) :
      AtEnd G k i (bs ++ told k [e]) := by
    rw [silent, List.append_nil]
    exact ⟨file', here'⟩
  cases step with
  | @make j none =>
      have other : i ≠ j := by
        rintro rfl
        cases none.symm.trans file
      exact stay rfl ((Function.update_of_ne other _ _).trans file) here
  | @cut j _ _ idle | @drop j _ _ idle =>
      have other : i ≠ j := by
        rintro rfl
        exact idle k _ here
      exact stay rfl ((Function.update_of_ne other _ _).trans file) here
  | @start k' j _ _ free =>
      have other : k ≠ k' := by
        rintro rfl
        cases free.symm.trans here
      exact stay rfl file ((Function.update_of_ne other _ _).trans here)
  | stop => exact stay rfl file ((Function.update_of_ne (Ne.symm alone) _ _).trans here)
  | @read k' j q n old here' file' =>
      by_cases same : k' = k
      · subst same
        obtain ⟨rfl, rfl⟩ := Prod.mk.inj (Option.some.inj (here.symm.trans here'))
        obtain rfl := Option.some.inj (file.symm.trans file')
        refine stay rfl file ?_
        rw [setCursor_cursor, Function.update_self, List.drop_length, List.take_nil]
        rfl
      · exact stay rfl file ((Function.update_of_ne (Ne.symm same) _ _).trans here)
  | @write k' j q old data here' file' =>
      by_cases same : k' = k
      · subst same
        obtain ⟨rfl, rfl⟩ := Prod.mk.inj (Option.some.inj (here.symm.trans here'))
        obtain rfl := Option.some.inj (file.symm.trans file')
        rw [told, if_pos rfl, told, List.append_nil]
        refine ⟨(Function.update_self _ _ _).trans (congrArg some (splice_length bs data)), (Function.update_self _ _ _).trans ?_⟩
        rw [List.length_append]
      · have other : i ≠ j := fun h => same (alone h.symm)
        exact stay (if_neg same) ((Function.update_of_ne other _ _).trans file) ((Function.update_of_ne (Ne.symm same) _ _).trans here)

theorem Run.atEnd (run : Run F es G) (alone : ∀ e ∈ es, Alone i k e) (atEnd : AtEnd F k i bs) : AtEnd G k i (bs ++ told k es) := by
  induction run generalizing bs with
  | nil =>
      rw [told, List.append_nil]
      exact atEnd
  | @cons F G H e es step _ ih =>
      have next := ih (fun e member => alone e (List.mem_cons_of_mem _ member)) (step.atEnd (alone e List.mem_cons_self) atEnd)
      have cons : told k (e :: es) = told k [e] ++ told k es := told_append k [e] es
      rwa [cons, ← List.append_assoc]

end ByteFiles

end SwiftBSD.Lib
