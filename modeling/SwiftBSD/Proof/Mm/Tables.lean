import SwiftBSD.Lib.Tables
import SwiftBSD.Proof.Mm.Entry

namespace SwiftBSD.Proof.Mm
open Lib SwiftBSD.Mm

abbrev Mem := Nat → Nat → UInt64

variable {n d : Nat} {m s t : Machine} {mem mem' mem₂ : Mem} {p c f g h : Nat} {q : List Nat}

def cowTable (table : Nat → UInt64) (i : Nat) : UInt64 := if i < 512 then cow (table i) else table i

/-- `f` is a page table below the first `n` entries of `p`. -/
def PtOf (n d : Nat) (mem : Mem) (p f : Nat) : Prop :=
  ∃ q, Path 512 n d q ∧ q.length = d ∧ tableAt next mem p q = some f

/-- Table `c` maps in `mem'` what `p` mapped in `mem`, and lets no user write. -/
def Copy : Nat → Nat → Mem → Mem → Nat → Nat → Prop
  | n, 0, mem, mem', p, c => ∀ i, i < n → mem' c i = cowCopy (mem p i)
  | n, d+1, mem, mem', p, c => ∀ i, i < n → match next (mem p i) with
      | none => mem' c i = if mem p i &&& pgPresent = 0 then 0 else mem p i
      | some f => ∃ g, g ≤ maxPages ∧ mem' c i = tableEntry g ∧ Copy 512 d mem mem' f g

/-- Frames that were in use keep their contents, up to the marks in the page tables below `p`. -/
structure Marked (n d : Nat) (m t : Machine) (p c : Nat) : Prop where
  grows : ∀ f, m.bitmap f = true → t.bitmap f = true
  old : ∀ f, m.bitmap f = true → f ≠ c → t.mem f = m.mem f ∨ PtOf n d m.mem p f ∧ t.mem f = cowTable (m.mem f)

structure Cloned (n d : Nat) (m t : Machine) (p c : Nat) : Prop extends Marked n d m t p c where
  pts : ∀ f, PtOf n d m.mem p f → t.mem f = cowTable (m.mem f)
  copy : Copy n d m.mem t.mem p c
  fresh : ∀ q g, Path 512 n d q → q ≠ [] → tableAt next t.mem c q = some g → m.bitmap g = false ∧ t.bitmap g = true
  tree : Tree next t.mem 512 n d c
  rest : ∀ i, n ≤ i → t.mem c i = m.mem c i

/-- The tables below `p` are a tree of frames in use, and `c` is another frame in use. -/
structure Ready (n d : Nat) (m : Machine) (p c : Nat) : Prop where
  tree : Tree next m.mem 512 n d p
  taken : ∀ q f, Path 512 n d q → tableAt next m.mem p q = some f → m.bitmap f = true ∧ f ≠ c
  child : m.bitmap c = true

theorem cowTable_cowTable (table : Nat → UInt64) : cowTable (cowTable table) = cowTable table := by
  funext i
  unfold cowTable
  split
  · exact cow_cow
  · rfl

theorem next_cowTable (table : Nat → UInt64) (i : Nat) : next (cowTable table i) = next (table i) := by
  unfold cowTable
  split
  · exact next_cow
  · rfl

theorem PtOf.grow {n' : Nat} (pt : PtOf n d mem p f) (more : n ≤ n') : PtOf n' d mem p f := by
  obtain ⟨q, path, length, at_⟩ := pt
  exact ⟨q, path.grow more, length, at_⟩

theorem PtOf.cons {i : Nat} (bound : i < n) (here : next (mem p i) = some g) (pt : PtOf 512 d mem g f) :
    PtOf n (d+1) mem p f := by
  obtain ⟨q, path, length, at_⟩ := pt
  exact ⟨i :: q, .cons bound path, congrArg (· + 1) length, by rw [tableAt_cons here, at_]⟩

theorem PtOf.uncons (pt : PtOf n (d+1) mem p f) :
    ∃ i g, i < n ∧ next (mem p i) = some g ∧ PtOf 512 d mem g f := by
  obtain ⟨q, path, length, at_⟩ := pt
  cases path with
  | nil => cases length
  | @cons _ _ i rest bound path =>
      obtain ⟨g, here, at_⟩ := tableAt_cons_some at_
      exact ⟨i, g, bound, here, rest, path, Nat.succ.inj length, at_⟩

theorem Copy.base (same : ∀ q h, Path 512 n d q → tableAt next mem p q = some h →
    mem₂ h = mem h ∨ q.length = d ∧ mem₂ h = cowTable (mem h)) (wide : n ≤ 512) (copy : Copy n d mem₂ mem' p c) :
    Copy n d mem mem' p c := by
  induction d generalizing n p c with
  | zero =>
      intro i bound
      rw [copy i bound]
      rcases same [] p .nil rfl with equal | ⟨-, marked⟩
      · rw [equal]
      · rw [marked, cowTable, if_pos (by omega), cowCopy_cow]
  | succ d ih =>
      intro i bound
      have equal : mem₂ p = mem p := (same [] p .nil rfl).resolve_right fun pt => nomatch pt.1
      have entry := copy i bound
      rw [equal] at entry
      cases here : next (mem p i) with
      | none =>
          rw [here] at entry
          exact entry
      | some f =>
          rw [here] at entry
          obtain ⟨g, small, entry, below⟩ := entry
          refine ⟨g, small, entry, ih (fun q h path at_ => ?_) (Nat.le_refl _) below⟩
          have := same (i :: q) h (.cons bound path) (by rw [tableAt_cons here, at_])
          exact this.imp_right fun pt => ⟨Nat.succ.inj pt.1, pt.2⟩

theorem Copy.keep (same : ∀ q h, Path 512 n d q → tableAt next mem' c q = some h → mem₂ h = mem' h)
    (copy : Copy n d mem mem' p c) : Copy n d mem mem₂ p c := by
  induction d generalizing n p c with
  | zero =>
      intro i bound
      rw [same [] c .nil rfl]
      exact copy i bound
  | succ d ih =>
      intro i bound
      have root := same [] c .nil rfl
      have entry := copy i bound
      cases here : next (mem p i) with
      | none =>
          rw [here] at entry
          rw [root]
          exact entry
      | some f =>
          rw [here] at entry
          obtain ⟨g, small, entry, below⟩ := entry
          refine ⟨g, small, by rw [root]; exact entry, ih (fun q h path at_ => ?_) below⟩
          refine same (i :: q) h (.cons bound path) ?_
          rw [tableAt_cons (by rw [entry, next_tableEntry small]), at_]

theorem Marked.refl (m : Machine) (n d p c : Nat) : Marked n d m m p c :=
  ⟨fun _ used => used, fun _ _ _ => .inl rfl⟩

theorem path_zero (path : Path 512 0 d q) : q = [] := by
  cases path with
  | nil => rfl
  | cons bound => omega

theorem Cloned.start (m : Machine) (d p c : Nat) : Cloned 0 (d+1) m m p c where
  toMarked := .refl m 0 (d+1) p c
  pts := by
    intro f pt
    obtain ⟨i, g, bound, -⟩ := pt.uncons
    omega
  copy := fun i bound => by omega
  fresh := fun q g path nonempty => (nonempty (path_zero path)).elim
  tree := ⟨fun q q' f path path' _ _ => by rw [path_zero path, path_zero path']⟩
  rest := fun _ _ => rfl

theorem Ready.parent (ready : Ready n (d+1) m p c) {j : Nat} (marked : Marked j (d+1) m s p c) (le : j ≤ n) :
    s.mem p = m.mem p := by
  obtain ⟨used, other⟩ := ready.taken [] p .nil rfl
  refine (marked.old p used other).resolve_right fun changed => ?_
  obtain ⟨q, path, length, at_⟩ := changed.1
  rw [ready.tree.unique q [] p (path.grow le) .nil at_ rfl] at length
  cases length

theorem Ready.later (ready : Ready n (d+1) m p c) {j : Nat} (marked : Marked j (d+1) m s p c) (bound : j < n)
    (here : next (m.mem p j) = some f) (path : Path 512 512 d q) (at_ : tableAt next m.mem f q = some h) :
    s.mem h = m.mem h := by
  obtain ⟨used, other⟩ := ready.taken (j :: q) h (.cons bound path) (by rw [tableAt_cons here, at_])
  refine (marked.old h used other).resolve_right fun changed => ?_
  obtain ⟨i, g, before, here', q', path', -, at'⟩ := changed.1.uncons
  have := ready.tree.apart bound here path at_ (by omega) here' path' at'
  omega

end SwiftBSD.Proof.Mm
