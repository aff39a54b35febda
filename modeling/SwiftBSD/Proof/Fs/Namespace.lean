import SwiftBSD.Proof.Fs.Release

namespace SwiftBSD.Proof.Fs
open Lib SwiftBSD.Fs

variable {R : Nat → Prop} {K : UInt16 → Prop} {V V' : Vol} {D : Nat → List (List Rec)} {i : Nat}
  {bs : List (List Rec)} {T : Nat → Prop}

structure Consistent (R : Nat → Prop) (K : UInt16 → Prop) (V : Vol) (D : Nat → List (List Rec)) : Prop where
  positive : 0 < V.groups
  bound : V.groups ≤ 131072
  own : Own R V
  double : ∀ i < V.inodes, (V.inode i).doubleIndirect = 0
  dirs : ∀ i < V.inodes, K (V.inode i).mode → Directory V (V.inode i) (D i)
  isDir : ∀ x : Inode, x.isDir = true → K x.mode
  fds : ∀ fd, (V.fds fd).inode < V.inodes

namespace Consistent

theorem root (c : Consistent R K V D) : 1 < V.inodes := by
  have := c.positive
  simp only [Vol.inodes]
  omega

theorem of_frame (c : Consistent R K V D) (frame : Frame T V V') (own : Own R V') {D' : Nat → List (List Rec)}
    (same : ∀ i, ¬ T i → D' i = D i) (double : ∀ i < V.inodes, T i → (V'.inode i).doubleIndirect = 0)
    (dirs : ∀ i < V.inodes, T i → K (V'.inode i).mode → Directory V' (V'.inode i) (D' i))
    (fds : ∀ fd, (V'.fds fd).inode < V'.inodes) : Consistent R K V' D' where
  positive := by rw [frame.groups]; exact c.positive
  bound := by rw [frame.groups]; exact c.bound
  own := own
  double := by
    intro i hi
    rw [frame.inodes] at hi
    by_cases touched : T i
    · exact double i hi touched
    · rw [frame.inode i touched]
      exact c.double i hi
  dirs := by
    intro i hi hK
    rw [frame.inodes] at hi
    by_cases touched : T i
    · exact dirs i hi touched hK
    · rw [same i touched]
      refine Directory.frame frame hi touched (c.dirs i hi ?_)
      rwa [frame.inode i touched] at hK
  isDir := c.isDir
  fds := fds

theorem edit (c : Consistent R K V D) (edited : Edited R i V V' bs) : Consistent R K V' (Function.update D i bs) := by
  refine c.of_frame edited.frame edited.own (fun j other => Function.update_of_ne other _ _) ?_ ?_ ?_
  · rintro j hj rfl
    rw [edited.double]
    exact c.double j hj
  · rintro j hj rfl _
    rw [Function.update_self]
    exact edited.dir
  · intro fd
    rw [edited.fds, edited.frame.inodes]
    exact c.fds fd

theorem same (c : Consistent R K V D) (frame : Frame (fun _ => False) V V') (own : Own R V') (fds : V'.fds = V.fds) :
    Consistent R K V' D := by
  refine c.of_frame frame own (fun _ _ => rfl) (fun _ _ => False.elim) (fun _ _ => False.elim) fun fd => ?_
  rw [fds, frame.inodes]
  exact c.fds fd

theorem exhaust (c : Consistent R K V D) : Consistent R K V.exhaust D :=
  c.same ⟨rfl, rfl, fun _ _ => rfl, fun _ _ _ _ _ => rfl⟩ c.own.exhaust rfl

theorem refresh (c : Consistent R K V D) : Consistent R K V.refresh D :=
  c.same ⟨rfl, rfl, fun _ _ => rfl, fun _ _ _ _ _ => rfl⟩ c.own.refresh rfl

theorem freed (c : Consistent R K V D) (freed : Freed V V') (own : Own R V') : Consistent R K V' D := by
  refine c.same freed.framed own ?_
  rw [freed.frame]

end Consistent

def walk (V : Vol) (D : Nat → List (List Rec)) : Nat → List (List UInt8) → Option Nat
  | i, [] => some i
  | i, c :: cs => if (V.inode i).isDir then (lookup (D i) c).bind fun j => walk V D j cs else none

def resolve (V : Vol) (D : Nat → List (List Rec)) (path : List UInt8) : Option Nat := walk V D 1 (pathComponents path)

def parentOf (V : Vol) (D : Nat → List (List Rec)) (path : List UInt8) : Option Nat :=
  match (splitParent path).1 with
  | some parent => resolve V D parent
  | none => some 1

theorem lookup_mem {name : List UInt8} {j : Nat} (h : lookup bs name = some j) :
    ∃ r ∈ seen bs, r.ino = j ∧ r.name = name := by
  obtain ⟨r, found, rfl⟩ := Option.map_eq_some_iff.mp h
  exact ⟨r, List.mem_of_find?_eq_some found, rfl, by simpa using List.find?_some found⟩

theorem mem_of_mem_seen {r : Rec} (h : r ∈ seen bs) : ∃ rs ∈ bs, r ∈ rs ∧ r.live = true := by
  obtain ⟨rs, hrs, hr⟩ := List.mem_flatMap.mp h
  exact ⟨rs, hrs, List.takeWhile_subset _ hr, List.all_eq_true.mp List.all_takeWhile r hr⟩

theorem Consistent.lookup_lt (c : Consistent R K V D) (hi : i < V.inodes) (isDir : (V.inode i).isDir = true)
    {name : List UInt8} {j : Nat} (h : lookup (D i) name = some j) : j < V.inodes := by
  obtain ⟨r, hr, rfl, -⟩ := lookup_mem h
  obtain ⟨rs, hrs, hr, -⟩ := mem_of_mem_seen hr
  exact (c.dirs i hi (c.isDir _ isDir)).inode rs hrs r hr

theorem Consistent.walk_lt (c : Consistent R K V D) {cs : List (List UInt8)} {j : Nat} (hi : i < V.inodes)
    (h : walk V D i cs = some j) : j < V.inodes := by
  induction cs generalizing i with
  | nil =>
      obtain rfl : i = j := by simpa [walk] using h
      exact hi
  | cons name cs ih =>
      unfold walk at h
      split at h
      · next isDir =>
          obtain ⟨k, found, rest⟩ := Option.bind_eq_some_iff.mp h
          exact ih (c.lookup_lt hi isDir found) rest
      · cases h

theorem runs_walkFrom (c : Consistent R K V D) {cs : List (List UInt8)} (hi : i < V.inodes)
    (names : ∀ name ∈ cs, 0 ∉ name ∧ name.length ≤ 254) :
    Runs Rep (walkFrom i cs) V fun r V' => r = walk V D i cs ∧ V' = V := by
  induction cs generalizing i with
  | nil => exact .pure ⟨rfl, rfl⟩
  | cons name cs ih =>
      obtain ⟨nul, short⟩ := names name (by simp)
      unfold walkFrom walk
      refine .bind (runs_inodeRead hi) ?_
      rintro _ V ⟨rfl, rfl⟩
      by_cases isDir : (V.inode i).isDir = true
      · simp only [isDir, Bool.not_true, Bool.false_eq_true, if_false, if_true]
        refine .bind (runs_dirLookup (c.dirs i hi (c.isDir _ isDir)) (c.own.inside hi) nul short) ?_
        rintro _ V ⟨rfl, rfl⟩
        cases found : lookup (D i) name with
        | none => exact .pure ⟨rfl, rfl⟩
        | some j => exact ih (c.lookup_lt hi isDir found) fun name h => names name (by simp [h])
      · simp only [isDir, Bool.not_false, Bool.false_eq_true, if_false, if_true]
        exact .pure ⟨rfl, rfl⟩

theorem mem_pathNext {path component rest : List UInt8} (h : pathNext path = some (component, rest)) :
    component ⊆ path ∧ rest ⊆ path ∧ component.length ≤ 254 := by
  unfold pathNext at h
  split at h
  · cases h
  · next c p hc =>
      simp only [Option.some.injEq, Prod.mk.injEq] at h
      obtain ⟨rfl, rfl⟩ := h
      have sub : c :: p ⊆ path := hc ▸ (List.dropWhile_sublist _).subset
      refine ⟨fun x hx => ?_, fun x hx => sub (List.mem_of_mem_drop hx), by simp⟩
      exact sub (List.takeWhile_subset _ (List.mem_of_mem_take hx))

theorem pathSplit_ok {n : Nat} {path : List UInt8} (nul : 0 ∉ path) :
    ∀ name ∈ pathSplit n path, 0 ∉ name ∧ name.length ≤ 254 := by
  induction n generalizing path with
  | zero => simp [pathSplit]
  | succ n ih =>
      unfold pathSplit
      split
      · simp
      · next component rest h =>
          obtain ⟨sub, restSub, short⟩ := mem_pathNext h
          simp only [List.mem_cons]
          rintro name (rfl | hname)
          · exact ⟨fun zero => nul (sub zero), short⟩
          · exact ih (fun zero => nul (restSub zero)) name hname

theorem runs_pathWalk (c : Consistent R K V D) {path : List UInt8} (nul : 0 ∉ path) :
    Runs Rep (pathWalk path) V fun r V' => r = resolve V D path ∧ V' = V :=
  runs_walkFrom c c.root (pathSplit_ok nul)

theorem nul_splitParent {path : List UInt8} (nul : 0 ∉ path) :
    (∀ parent, (splitParent path).1 = some parent → 0 ∉ parent) ∧ 0 ∉ (splitParent path).2 := by
  unfold splitParent
  split
  · refine ⟨?_, fun zero => nul (List.mem_of_mem_take (List.mem_of_mem_drop (List.mem_of_mem_take zero)))⟩
    rintro parent h
    obtain rfl := Option.some.inj h
    exact fun zero => nul (List.mem_of_mem_take (List.mem_of_mem_take zero))
  · exact ⟨by simp, fun zero => nul (List.mem_of_mem_take zero)⟩

theorem runs_parentWalk (c : Consistent R K V D) {path : List UInt8} (nul : 0 ∉ path) :
    Runs Rep (parentWalk path) V fun r V' => r = parentOf V D path ∧ V' = V := by
  have clean := (nul_splitParent nul).1
  unfold parentWalk parentOf
  cases h : (splitParent path).1 with
  | some parent => exact runs_pathWalk c (clean parent h)
  | none => exact .pure ⟨rfl, rfl⟩

theorem Consistent.resolve_lt (c : Consistent R K V D) {path : List UInt8} {j : Nat} (h : resolve V D path = some j) :
    j < V.inodes := c.walk_lt c.root h

theorem Consistent.parentOf_lt (c : Consistent R K V D) {path : List UInt8} {j : Nat}
    (h : parentOf V D path = some j) : j < V.inodes := by
  unfold parentOf at h
  split at h
  · exact c.resolve_lt h
  · obtain rfl := Option.some.inj h
    exact c.root

theorem lookup_pos {bs : List (List Rec)} {name : List UInt8} {j : Nat} (h : lookup bs name = some j) : 0 < j := by
  obtain ⟨r, hr, rfl, -⟩ := lookup_mem h
  obtain ⟨-, -, -, live⟩ := mem_of_mem_seen hr
  exact Nat.pos_of_ne_zero (by simpa [Rec.live] using live)

theorem walk_pos {cs : List (List UInt8)} {j : Nat} (hi : 0 < i) (h : walk V D i cs = some j) : 0 < j := by
  induction cs generalizing i with
  | nil =>
      obtain rfl : i = j := by simpa [walk] using h
      exact hi
  | cons name cs ih =>
      unfold walk at h
      split at h
      · obtain ⟨k, found, rest⟩ := Option.bind_eq_some_iff.mp h
        exact ih (lookup_pos found) rest
      · cases h

theorem resolve_pos {path : List UInt8} {j : Nat} (h : resolve V D path = some j) : 0 < j := walk_pos (by decide) h

theorem parentOf_pos {path : List UInt8} {j : Nat} (h : parentOf V D path = some j) : 0 < j := by
  unfold parentOf at h
  split at h
  · exact resolve_pos h
  · obtain rfl := Option.some.inj h
    decide

end SwiftBSD.Proof.Fs
