import SwiftBSD.Lib.Parts
import SwiftBSD.Proof.Fs.Fresh
import SwiftBSD.Proof.Fs.ReadEnd

namespace SwiftBSD.Proof.Fs
open Lib SwiftBSD.Fs

variable {s : FsState Disk} {S : Nat → Prop} {D : Nat → List (List Rec)} {V : Vol} {i j : Nat} {x : Inode} {path : List UInt8}

/-- The maximal runs of bytes other than slashes. -/
def components (path : List UInt8) : List (List UInt8) := parts slash path

/-- Every component fits into the buffer of `path_walk`. -/
def ShortParts (path : List UInt8) : Prop := ∀ c ∈ components path, c.length ≤ 254

theorem components_append (l r : List UInt8) : components (l ++ slash :: r) = components l ++ components r := parts_append

theorem pathSplit_eq {n : Nat} (fuel : path.length ≤ n) (short : ShortParts path) : pathSplit n path = components path := by
  induction n generalizing path with
  | zero =>
      obtain rfl := List.eq_nil_of_length_eq_zero (by omega : path.length = 0)
      rfl
  | succ n ih =>
      unfold pathSplit pathNext
      unfold ShortParts components at *
      rw [← parts_dropWhile] at short ⊢
      have shorter := (List.dropWhile_sublist (· == slash) (l := path)).length_le
      cases rest : path.dropWhile (· == slash) with
      | nil => rfl
      | cons c r =>
          have other : c ≠ slash := by simpa using dropWhile_cons_not rest
          rw [rest] at short shorter
          rw [parts_cons other] at short ⊢
          have whole : ((c :: r).takeWhile (· != slash)).take 254 = (c :: r).takeWhile (· != slash) :=
            List.take_of_length_le (short _ List.mem_cons_self)
          have after : (c :: r).drop ((c :: r).takeWhile (· != slash)).length = (c :: r).dropWhile (· != slash) := by
            have split : (c :: r).takeWhile (· != slash) ++ (c :: r).dropWhile (· != slash) = c :: r := List.takeWhile_append_dropWhile
            generalize (c :: r).takeWhile (· != slash) = first at split ⊢
            rw [← split, List.drop_left, split]
          have less : ((c :: r).dropWhile (· != slash)).length ≤ n := by
            rw [List.dropWhile_cons_of_pos (by simpa using other)]
            have := (List.dropWhile_sublist (· != slash) (l := r)).length_le
            rw [List.length_cons] at shorter
            omega
          dsimp only
          rw [whole, after, ih less fun p member => short p (List.mem_cons_of_mem _ member)]

theorem pathComponents_eq (short : ShortParts path) : pathComponents path = components path := pathSplit_eq (Nat.le_refl _) short

/-- The inode that `inode_read` returns, if the number is one of the volume. -/
def inodeOf (s : FsState Disk) (i : Nat) : Option Inode := ((inodeRead i).run s).map Prod.fst

theorem run_inodeRead_inodeOf (s : FsState Disk) (i : Nat) : (inodeRead i).run s = (inodeOf s i).map (·, s) := by
  unfold inodeOf inodeRead inodeBlockAndOffset
  simp only [StateT.run_bind, StateT.run_get, Option.bind_eq_bind, Option.pure_def, Option.bind_some]
  split
  · rfl
  · rfl

/-- The blocks of directory `x`, up to the first that is not there, are well formed; `bs` are their records. -/
structure WellFormedDir (s : FsState Disk) (x : Inode) (bs : List (List Rec)) : Prop where
  block : ∀ k rs, bs[k]? = some rs → fileBlock s.dev.block x k ≠ 0 ∧
    ∃ es, Tiled (s.dev.block (fileBlock s.dev.block x k)) 0 4096 es ∧ es.map Entry.toRec = rs
  last : fileBlock s.dev.block x bs.length = 0

/-- The directories among the inodes of `S` are well formed; `D i` are the records of inode `i`. `S` has the root and every inode that
the directories in it name. -/
structure WellFormed (s : FsState Disk) (S : Nat → Prop) (D : Nat → List (List Rec)) : Prop where
  root : S 1
  dir : ∀ i x, S i → inodeOf s i = some x → x.isDir = true → WellFormedDir s x (D i)
  closed : ∀ i x, S i → inodeOf s i = some x → x.isDir = true → ∀ rs ∈ D i, ∀ r ∈ rs, r.live = true → S r.ino

/-- The lookup of one name after the other, each in the directory that the one before it named. -/
def walkIn (s : FsState Disk) (D : Nat → List (List Rec)) : Nat → List (List UInt8) → Option (Option Nat)
  | i, [] => some (some i)
  | i, c :: cs => do
      let x ← inodeOf s i
      if x.isDir then
        match lookup (D i) c with
        | none => some none
        | some j => walkIn s D j cs
      else some none

theorem WellFormedDir.length_le {bs : List (List Rec)} (wf : WellFormedDir s x bs) : bs.length ≤ 1036 := by
  by_contra large
  exact (wf.block 1036 _ (List.getElem?_eq_getElem (by omega))).1 (fileBlock_of_ge (by omega))

theorem run_dirLookup {bs : List (List Rec)} (wf : WellFormedDir s x bs) {name : List UInt8}
    (nul : 0 ∉ name) (short : name.length ≤ 254) : (dirLookup x name).run s = some (lookup bs name, s) := by
  have scan : Runs Eq (dirLookup x name) s fun r t => r = lookup bs name ∧ t = s := by
    unfold dirLookup
    refine .bind (P := fun r t => r.getD none = lookup bs name ∧ t = s) ?_ fun r t h => .pure h
    refine Runs.search (fun k t => t = s ∧ k ≤ bs.length ∧ (seen (bs.take k)).find? (·.name = name) = none)
      ⟨rfl, Nat.zero_le _, by simp [seen]⟩ ?_ ?_
    · rintro k _ - - ⟨rfl, le, before⟩ t rfl
      rw [run_bind_some (run_bmapRead _ k)]
      simp only [ofNat_fileBlock_eq_zero, toNat_ofNat_fileBlock]
      rcases Nat.lt_or_eq_of_le le with less | rfl
      · obtain ⟨present, es, tiled, records⟩ := wf.block k _ (List.getElem?_eq_getElem less)
        have few := tiled.le
        rw [if_neg present, run_bind_some (run_cacheGet t _), run_bind_some (run_load t _),
          lookupFrom_tiled nul short tiled (by omega), records]
        cases found : (visible bs[k]).find? (·.name = name) with
        | none =>
            refine ⟨none, t, t, rfl, rfl, rfl, less, ?_⟩
            rw [seen_take_succ (List.getElem?_eq_getElem less), List.find?_append, before, found]
            rfl
        | some r =>
            refine ⟨some (some r.ino), t, t, rfl, rfl, ?_, rfl⟩
            rw [lookup, seen_split (List.getElem?_eq_getElem less), List.find?_append, before, List.find?_append, found]
            rfl
      · rw [if_pos wf.last]
        rw [List.take_length] at before
        refine ⟨some none, t, t, rfl, rfl, ?_, rfl⟩
        rw [lookup, before]
        rfl
    · rintro _ ⟨-, le, -⟩
      have := wf.length_le
      omega
  obtain ⟨r, t, _, run, rfl, rfl, rfl⟩ := scan s rfl
  exact run

theorem walkIn_append (s : FsState Disk) (D : Nat → List (List Rec)) (i : Nat) (a b : List (List UInt8)) :
    walkIn s D i (a ++ b) = (walkIn s D i a).bind fun r => match r with
      | none => some none
      | some d => walkIn s D d b := by
  induction a generalizing i with
  | nil => rfl
  | cons c a ih =>
      rw [List.cons_append, walkIn, walkIn]
      cases inodeOf s i with
      | none => rfl
      | some x =>
          simp only [Option.bind_eq_bind, Option.bind_some]
          split
          · cases lookup (D i) c with
            | none => rfl
            | some j => exact ih j
          · rfl

theorem walkIn_append_some (a b : List (List UInt8)) :
    walkIn s D i (a ++ b) = some (some j) ↔ ∃ d, walkIn s D i a = some (some d) ∧ walkIn s D d b = some (some j) := by
  rw [walkIn_append]
  constructor
  · intro found
    obtain ⟨r, first, second⟩ := Option.bind_eq_some_iff.mp found
    cases r with
    | none => cases second
    | some d => exact ⟨d, first, second⟩
  · rintro ⟨d, first, second⟩
    rw [first]
    exact second

theorem lookup_live {bs : List (List Rec)} {name : List UInt8} (found : lookup bs name = some j) :
    ∃ rs ∈ bs, ∃ r ∈ rs, r.live = true ∧ r.ino = j := by
  obtain ⟨r, member, rfl, -⟩ := lookup_mem found
  obtain ⟨rs, block, here, live⟩ := mem_of_mem_seen member
  exact ⟨rs, block, r, here, live, rfl⟩

theorem run_walkFrom (wf : WellFormed s S D) {cs : List (List UInt8)} (start : S i) (names : ∀ name ∈ cs, 0 ∉ name ∧ name.length ≤ 254) :
    (walkFrom i cs).run s = (walkIn s D i cs).map (·, s) := by
  induction cs generalizing i with
  | nil => rfl
  | cons name cs ih =>
      obtain ⟨nul, short⟩ := names name List.mem_cons_self
      have read := run_inodeRead_inodeOf s i
      unfold walkFrom walkIn
      cases here : inodeOf s i with
      | none =>
          rw [here] at read
          rw [StateT.run_bind, read]
          rfl
      | some x =>
          rw [here] at read
          rw [run_bind_some read]
          simp only [Option.bind_eq_bind, Option.bind_some]
          by_cases isDir : x.isDir = true
          · simp only [isDir, Bool.not_true, Bool.false_eq_true, if_false, if_true]
            rw [run_bind_some (run_dirLookup (wf.dir i x start here isDir) nul short)]
            cases found : lookup (D i) name with
            | none => rfl
            | some j =>
                obtain ⟨rs, block, r, member, live, rfl⟩ := lookup_live found
                exact ih (wf.closed i x start here isDir rs block r member live) fun name member => names name (List.mem_cons_of_mem _ member)
          · simp only [isDir, Bool.not_false, Bool.false_eq_true, if_false, if_true]
            rfl

theorem run_pathWalk_components (wf : WellFormed s S D) (p : CString) (short : ShortParts p.bytes) :
    (pathWalk p.bytes).run s = (walkIn s D 1 (components p.bytes)).map (·, s) := by
  unfold pathWalk
  rw [← pathComponents_eq short]
  exact run_walkFrom wf wf.root (pathSplit_ok p.nul)

/-- Path resolution depends only on the components of the path, and goes through them from one directory to the next. -/
theorem path_resolution (wf : WellFormed s S D) :
    (∀ p : CString, ShortParts p.bytes → (pathWalk p.bytes).run s = (walkIn s D 1 (components p.bytes)).map (·, s)) ∧
      (∀ p q : CString, ShortParts p.bytes → components p.bytes = components q.bytes →
        (pathWalk p.bytes).run s = (pathWalk q.bytes).run s) ∧
      (∀ l r : List UInt8, components (l ++ slash :: r) = components l ++ components r) ∧
      (∀ p : CString, components p.bytes = [] → (pathWalk p.bytes).run s = some (some 1, s)) ∧
      ∀ (p q : CString) (b : List (List UInt8)) (i : Nat), ShortParts p.bytes → components p.bytes = components q.bytes ++ b →
        ((pathWalk p.bytes).run s = some (some i, s) ↔
          ∃ d, (pathWalk q.bytes).run s = some (some d, s) ∧ walkIn s D d b = some (some i)) := by
  have resolved (r : Option (Option Nat)) (i : Nat) : r.map (·, s) = some (some i, s) ↔ r = some (some i) := by
    rw [Option.map_eq_some_iff]
    constructor
    · rintro ⟨_, rfl, same⟩
      rw [(Prod.mk.inj same).1]
    · rintro rfl
      exact ⟨_, rfl, rfl⟩
  refine ⟨run_pathWalk_components wf, fun p q short same => ?_, components_append, fun p none => ?_, fun p q b i short split => ?_⟩
  · have short' : ShortParts q.bytes := fun c member => short c (same ▸ member)
    rw [run_pathWalk_components wf p short, run_pathWalk_components wf q short', same]
  · have short : ShortParts p.bytes := fun c member => by
      rw [none] at member
      cases member
    rw [run_pathWalk_components wf p short, none]
    rfl
  · have short' : ShortParts q.bytes := fun c member => short c (split ▸ List.mem_append_left b member)
    rw [run_pathWalk_components wf p short, run_pathWalk_components wf q short', split, resolved, walkIn_append_some]
    simp only [resolved]

theorem Consistent.wellFormed {R : Nat → Prop} {K : UInt16 → Prop} (consistent : Consistent R K V D) (rep : Rep s V) :
    WellFormed s (· < V.inodes) D := by
  have dir (i : Nat) (x : Inode) (hi : i < V.inodes) (read : inodeOf s i = some x) (isDir : x.isDir = true) :
      x = V.inode i ∧ Directory V (V.inode i) (D i) := by
    unfold inodeOf at read
    rw [run_inodeRead rep hi] at read
    obtain rfl : V.inode i = x := Option.some.inj read
    exact ⟨rfl, consistent.dirs i hi (consistent.isDir _ isDir)⟩
  refine ⟨consistent.root, fun i x hi read isDir => ?_, fun i x hi read isDir rs block r member _ => ?_⟩
  · obtain ⟨rfl, directory⟩ := dir i x hi read isDir
    constructor
    · intro k rs here
      obtain ⟨present, chain⟩ := directory.block k rs here
      rw [rep.fileBlock consistent.own hi, rep.data _ ((consistent.own.inside hi).block present)]
      exact ⟨present, chain.tiled⟩
    · rw [rep.fileBlock consistent.own hi]
      exact directory.last _ (Nat.le_refl _)
  · exact (dir i x hi read isDir).2.inode rs block r member

/-- On a fresh volume `//..` leads where `..` leads, which is the root directory. -/
theorem path_resolution_fresh : ∃ (s t : FsState Disk) (p q : CString), p.bytes = [slash, slash] ++ dotdot ∧ q.bytes = dotdot ∧
    (pathWalk p.bytes).run s = (pathWalk q.bytes).run s ∧ (pathWalk p.bytes).run s = some (some 1, t) := by
  obtain ⟨_, s, V, -, -, rep, fresh, dirs⟩ := fresh_128
  have consistent := dirs (fun _ => True) fun _ _ => trivial
  have wf := consistent.wellFormed rep
  have nul : (0 : UInt8) ∉ [slash, slash] ++ dotdot := by decide
  have parts : components ([slash, slash] ++ dotdot) = [dotdot] := by decide
  have alike : components ([slash, slash] ++ dotdot) = components dotdot := by decide
  have found : resolve V rootDirs dotdot = some 1 := by
    have parts' : pathComponents dotdot = [dotdot] := by decide
    have entry : lookup (rootDirs 1) dotdot = some 1 := by decide
    rw [resolve, parts', walk, fresh.root, if_pos rfl, entry]
    rfl
  obtain ⟨t, walked, -⟩ := run_pathWalk rep consistent ⟨dotdot, by decide⟩
  rw [found] at walked
  have same : (pathWalk ([slash, slash] ++ dotdot)).run s = (pathWalk dotdot).run s := by
    refine (path_resolution wf).2.1 ⟨[slash, slash] ++ dotdot, nul⟩ ⟨dotdot, by decide⟩ (fun c member => ?_) alike
    rw [parts, List.mem_singleton] at member
    rw [member]
    decide
  exact ⟨s, t, ⟨[slash, slash] ++ dotdot, nul⟩, ⟨dotdot, by decide⟩, rfl, rfl, same, same.trans walked⟩

end SwiftBSD.Proof.Fs
