import SwiftBSD.Proof.Mm.Spared
import SwiftBSD.Proof.Sched.Process
import SwiftBSD.Proof.Sched.Table

namespace SwiftBSD.Proof.Sched
open Lib SwiftBSD.Mm SwiftBSD.Sched SwiftBSD.Proof.Mm

variable {σ : Type} {s t : Kernel σ} {m u : Machine} {pagePml4 sysframe rax userRsp frame cr3 child : UInt64} {pid : Int32} {k i j f : Nat}

def irqWords (mem : Mem) (sysframe rax userRsp : UInt64) : List UInt64 :=
  let slot (offset : UInt64) : UInt64 := mem (frameOf (sysframe + offset)) ((sysframe + offset).toNat % 4096 / 8)
  [rax, 0, slot 32, slot 40, slot 56, slot 48, 0, slot 24, slot 16, slot 8, slot 0, 0, 0, 0, 0, 0, 0, slot 32, 0x23, 0x202, userRsp, 0x1B]

/-- Memory after `j` words have been written for a stack in frame `k`. -/
def framed (k : Nat) (words : Nat → UInt64) (j : Nat) (mem : Mem) : Mem := fun f x =>
  if f = k ∧ 495 ≤ x ∧ x < 512 ∧ x < 495 + j then words (x - 495)
  else if f = k + 1 ∧ x + 17 < j then words (x + 17)
  else mem f x

def stackFrame (k : Nat) : UInt64 := addrOf k + kstackSize - 15 * 8 - 2 * 8

theorem toNat_stackWord (bound : k ≤ maxPages) (small : i < 22) : (stackFrame k + 8 * .ofNat i).toNat = 4096 * k + 3960 + 8 * i := by
  unfold maxPages at bound
  have base : (addrOf k).toNat = 4096 * k := UInt64.toNat_ofNat_of_lt' (by change 4096 * k < 2 ^ 64; omega)
  have index : (UInt64.ofNat i).toNat = i := UInt64.toNat_ofNat_of_lt' (by change i < 2 ^ 64; omega)
  have start : stackFrame k = addrOf k + 3960 := by
    unfold stackFrame kstackSize
    grind
  rw [start, UInt64.toNat_add, UInt64.toNat_add, UInt64.toNat_mul, base, index]
  change ((4096 * k + 3960) % 2 ^ 64 + 8 * i % 2 ^ 64) % 2 ^ 64 = _
  omega

theorem stackWord_place (bound : k ≤ maxPages) (small : i < 22) :
    frameOf (stackFrame k + 8 * .ofNat i) = (if i < 17 then k else k + 1) ∧
      (stackFrame k + 8 * .ofNat i).toNat % 4096 / 8 = if i < 17 then 495 + i else i - 17 := by
  unfold frameOf
  rw [toNat_stackWord bound small]
  constructor
  · split <;> omega
  · split <;> omega

theorem update_word (mem : Mem) (f' x' : Nat) (v : UInt64) (f x : Nat) :
    Function.update mem f' (Function.update (mem f') x' v) f x = if f = f' ∧ x = x' then v else mem f x := by
  rw [Function.update_apply]
  by_cases here : f = f'
  · rw [if_pos here, Function.update_apply, here]
    simp
  · rw [if_neg here, if_neg fun both => here both.1]

theorem framed_succ (words : Nat → UInt64) (mem : Mem) (j : Nat) : framed k words (j + 1) mem =
    Function.update (framed k words j mem) (if j < 17 then k else k + 1)
      (Function.update (framed k words j mem (if j < 17 then k else k + 1)) (if j < 17 then 495 + j else j - 17) (words j)) := by
  funext f x
  rw [update_word]
  unfold framed
  by_cases low : j < 17
  · simp only [if_pos low]
    split_ifs <;> first | with_reducible rfl | omega | (refine congrArg words ?_; omega)
  · simp only [if_neg low]
    split_ifs <;> first | with_reducible rfl | omega | (refine congrArg words ?_; omega)

theorem framed_zero (words : Nat → UInt64) (mem : Mem) : framed k words 0 mem = mem := by
  funext f x
  unfold framed
  rw [if_neg (by omega), if_neg (by omega)]

theorem buildIrqFrame_run (bound : k ≤ maxPages) (run : (buildIrqFrame sysframe rax (addrOf k) userRsp).run m = some (frame, u)) :
    frame = stackFrame k ∧ u = { m with mem := framed k (fun i => (irqWords m.mem sysframe rax userRsp).getD i 0) 22 m.mem } := by
  unfold buildIrqFrame at run
  dsimp only at run
  have slot (addr : UInt64) : (wordAt addr).run m = some (m.mem (frameOf addr) (addr.toNat % 4096 / 8), m) := rfl
  rw [run_bind_some (slot _), run_bind_some (slot _), run_bind_some (slot _), run_bind_some (slot _), run_bind_some (slot _),
    run_bind_some (slot _), run_bind_some (slot _), run_bind_some (slot _)] at run
  obtain ⟨_, v, stores, last⟩ := run_bind_eq_some.mp run
  obtain ⟨rfl, rfl⟩ := Prod.mk.inj (Option.some.inj last)
  refine ⟨rfl, ?_⟩
  have stores' : (forRange (fun i => setWordAt (stackFrame k + 8 * .ofNat i) ((irqWords m.mem sysframe rax userRsp).getD i 0)) 0 22).run m =
    some ((), v) := stores
  refine forRange_run (fun j v => j ≤ 22 → v = { m with mem := framed k (fun i => (irqWords m.mem sysframe rax userRsp).getD i 0) j m.mem })
    ?_ ?_ stores' (Nat.le_refl 22)
  · intro _
    rw [framed_zero]
  · intro j v w _ upper here step more
    have small : j < 22 := by omega
    obtain ⟨atFrame, atWord⟩ := stackWord_place bound small
    rw [here (by omega)] at step
    unfold setWordAt at step
    rw [setWord_run step, atFrame, atWord, framed_succ]
    rfl

theorem pidAlloc_fresh (positive : 0 < s.nextPid) (run : pidAlloc.run s = some (pid, t)) : PidRun s pid t := by
  obtain ⟨number, u, run', fresh⟩ := pidAlloc_run positive
  obtain ⟨rfl, rfl⟩ := Prod.mk.inj (Option.some.inj (run.symm.trans run'))
  exact fresh

/-- Memory after the frame has been built for the stack in frame `k`. -/
def framedMemory (s : Kernel σ) (m : Machine) (k : Nat) : Mem :=
  framed k (fun i => (irqWords m.mem s.syscallFramePtr 0 s.userRspSave).getD i 0) 22 m.mem

/-- How far a fork comes: to the tables, to the kernel stack, to the frame on it, or to the new process. -/
inductive ForkStage (pagePml4 : UInt64) (s : Kernel σ) : Int32 → Kernel σ → Prop
  | noTables {m : Machine} (clone : (vmmClonePml4 (s.parentCr3 pagePml4)).run s.machine = some (0, m)) :
      ForkStage pagePml4 s (-1) { s with machine := m }
  | noStack {m m' : Machine} {child : UInt64} (clone : (vmmClonePml4 (s.parentCr3 pagePml4)).run s.machine = some (child, m))
      (made : child ≠ 0) (stack : pageAlloc.run m = some (0, m')) : ForkStage pagePml4 s (-1) { s with machine := m' }
  | noSlot {m m' : Machine} {child : UInt64} {k : Nat} (clone : (vmmClonePml4 (s.parentCr3 pagePml4)).run s.machine = some (child, m))
      (made : child ≠ 0) (stack : pageAlloc.run m = some (addrOf k, m')) (nonzero : addrOf k ≠ 0) (bound : k ≤ maxPages)
      (full : freeProc s.procs = none) : ForkStage pagePml4 s (-1) { s with machine := { m' with mem := framedMemory s m' k } }
  | child {m m' : Machine} {child : UInt64} {k idx : Nat} {pid : Int32} {t : Kernel σ}
      (clone : (vmmClonePml4 (s.parentCr3 pagePml4)).run s.machine = some (child, m)) (made : child ≠ 0)
      (stack : pageAlloc.run m = some (addrOf k, m')) (nonzero : addrOf k ≠ 0) (bound : k ≤ maxPages) (slot : freeProc s.procs = some idx)
      (positive : 0 < pid) (machine : t.machine = { m' with mem := framedMemory s m' k })
      (procs : t.procs = Function.update s.procs idx (childOf s.current pid child (addrOf k) (stackFrame k)))
      (current : t.currentIdx = s.currentIdx) (saved : t.syscallFramePtr = s.syscallFramePtr ∧ t.userRspSave = s.userRspSave) :
      ForkStage pagePml4 s pid t

theorem procFork_stage (next : 0 < s.nextPid) (run : (procFork pagePml4).run s = some (pid, t)) : ForkStage pagePml4 s pid t := by
  unfold procFork at run
  rw [run_bind_some (x := get) rfl] at run
  obtain ⟨child, s₁, cloned, run⟩ := run_bind_eq_some.mp run
  obtain ⟨m, clone, rfl⟩ := onMachine_run cloned
  split at run
  · next none =>
      subst none
      cases run
      exact .noTables clone
  next made =>
  obtain ⟨kstack, s₂, stacked, run⟩ := run_bind_eq_some.mp run
  obtain ⟨m', stack, rfl⟩ := onMachine_run stacked
  split at run
  · next none =>
      subst none
      cases run
      exact .noStack clone made stack
  next nonzero =>
  cases pageAlloc_run stack with
  | none => exact (nonzero rfl).elim
  | @took k bound free =>
      obtain ⟨frame, s₃, built, run⟩ := run_bind_eq_some.mp run
      obtain ⟨m₃, build, rfl⟩ := onMachine_run built
      obtain ⟨rfl, rfl⟩ := buildIrqFrame_run bound build
      rw [run_bind_some (x := get) rfl] at run
      dsimp only at run
      cases slot : freeProc s.procs with
      | none =>
          rw [slot] at run
          cases run
          exact .noSlot clone made stack nonzero bound slot
      | some idx =>
          rw [slot] at run
          obtain ⟨number, s₄, numbered, run⟩ := run_bind_eq_some.mp run
          have fresh := pidAlloc_fresh (by exact next) numbered
          rw [if_neg (fun negative => Int32.not_le.mpr fresh.positive (Int32.le_of_lt negative))] at run
          obtain ⟨_, s₅, stored, run⟩ := run_bind_eq_some.mp run
          cases stored
          obtain ⟨rfl, rfl⟩ := pure_run run
          have state := fresh.state
          refine .child clone made stack nonzero bound slot fresh.positive ?_ ?_ ?_ ⟨?_, ?_⟩
          all_goals
            rw [state]
            rfl

def wordIn (mem : Mem) (addr : UInt64) : UInt64 := mem (frameOf addr) (addr.toNat % 4096 / 8)

/-- A fork writes to frames it takes and to the tables of the parent, and what the child is resumed from is in its own kernel stack. -/
structure OwnWrites (pagePml4 : UInt64) (s t : Kernel σ) : Prop where
  frames : ∀ f, ¬ (s.machine.bitmap f = false ∧ t.machine.bitmap f = true) → ¬ LowTable s.machine.mem (s.parentCr3 pagePml4) f →
    t.machine.mem f = s.machine.mem f
  saved : ∀ idx, (s.procs idx).used = false → (t.procs idx).used = true → ∀ mem : Mem,
    mem (frameOf (t.procs idx).kstack) = t.machine.mem (frameOf (t.procs idx).kstack) → ∀ i < 22,
    wordIn mem ((t.procs idx).frame + 8 * .ofNat i) = wordIn t.machine.mem ((t.procs idx).frame + 8 * .ofNat i)

/-- If there are frames for the tables and for the kernel stack then there is no slot for the child, and the frame behind the stack is a
table of the parent, or has just been taken, or holds the last five words of the saved registers already. -/
def Harmless (pagePml4 : UInt64) (s : Kernel σ) : Prop :=
  ∀ child m k m', (vmmClonePml4 (s.parentCr3 pagePml4)).run s.machine = some (child, m) → child ≠ 0 →
    pageAlloc.run m = some (addrOf k, m') → addrOf k ≠ 0 → k ≤ maxPages → freeProc s.procs = none ∧
      (LowTable s.machine.mem (s.parentCr3 pagePml4) (k + 1) ∨ s.machine.bitmap (k + 1) = false ∧ m.bitmap (k + 1) = true ∨
        ∀ i < 5, s.machine.mem (k + 1) i = (irqWords m.mem s.syscallFramePtr 0 s.userRspSave).getD (17 + i) 0)

section Clone
variable {x y : Machine} (tables : LowTables x cr3) (clone : (vmmClonePml4 cr3).run x = some (child, y))
include tables clone

theorem clone_frames (other : ¬ (x.bitmap f = false ∧ y.bitmap f = true)) (table : ¬ LowTable x.mem cr3 f) : y.mem f = x.mem f := by
  have marked : CloneMarked x y (frameOf cr3) := by
    rcases vmmClonePml4_run tables clone with ⟨-, marked⟩ | ⟨c, -, -, cloned⟩
    · exact marked
    · exact cloned.toCloneMarked
  cases used : x.bitmap f with
  | true =>
      refine (marked.old f used).resolve_right fun changed => table ?_
      obtain ⟨q, path, -, at_⟩ := changed.1
      exact ⟨q, path, at_⟩
  | false =>
      refine (vmmClonePml4_spares tables clone).free f ?_
      exact eq_false_of_ne_true fun taken => other ⟨used, taken⟩

end Clone

theorem framed_other (words : Nat → UInt64) (mem : Mem) (j : Nat) (stack : f ≠ k) (behind : f ≠ k + 1) : framed k words j mem f = mem f := by
  funext x
  unfold framed
  rw [if_neg fun here => stack here.1, if_neg fun here => behind here.1]

theorem framed_behind (words : Nat → UInt64) (mem : Mem) (x : Nat) : framed k words 22 mem (k + 1) x = if x < 5 then words (17 + x) else mem (k + 1) x := by
  unfold framed
  rw [if_neg (by omega)]
  by_cases small : x < 5
  · rw [if_pos ⟨rfl, by omega⟩, if_pos small, Nat.add_comm]
  · rw [if_neg (by omega), if_neg small]

theorem frameOf_behind (bound : k ≤ maxPages) : frameOf (stackFrame k + 8 * .ofNat 17) = k + 1 ∧
    (stackFrame k + 8 * .ofNat 17).toNat % 4096 / 8 = 0 := stackWord_place bound (by decide)

theorem alloc_keeps {x y : Machine} {a : UInt64} (alloc : pageAlloc.run x = some (a, y)) :
    y.mem = x.mem ∧ ∀ f, x.bitmap f = true → y.bitmap f = true := by
  cases pageAlloc_run alloc with
  | none => exact ⟨rfl, fun _ used => used⟩
  | @took g bound free =>
      refine ⟨rfl, fun f used => ?_⟩
      change Function.update x.bitmap g true f = true
      rw [Function.update_apply]
      split
      · rfl
      · exact used

theorem stack_taken {x y : Machine} (bound : k ≤ maxPages) (nonzero : addrOf k ≠ 0) (stack : pageAlloc.run x = some (addrOf k, y)) :
    x.bitmap k = false ∧ y.bitmap = Function.update x.bitmap k true ∧ y.mem = x.mem := by
  generalize at_ : addrOf k = a at stack nonzero
  cases pageAlloc_run stack with
  | none => exact (nonzero rfl).elim
  | @took g bound' free =>
      obtain rfl : g = k := by rw [← frameOf_addrOf bound', ← at_, frameOf_addrOf bound]
      exact ⟨free, rfl, rfl⟩

section Built
variable {x y : Machine} (tables : LowTables s.machine (s.parentCr3 pagePml4))
  (clone : (vmmClonePml4 (s.parentCr3 pagePml4)).run s.machine = some (child, x)) (stack : pageAlloc.run x = some (addrOf k, y))
  (nonzero : addrOf k ≠ 0) (bound : k ≤ maxPages)
include tables clone stack nonzero bound

theorem stack_free : s.machine.bitmap k = false := by
  have free := (stack_taken bound nonzero stack).1
  have spares := vmmClonePml4_spares tables clone
  cases used : s.machine.bitmap k with
  | false => rfl
  | true => exact (spares.grows k used).symm.trans free

theorem framedMemory_other (behind : f ≠ k + 1) (other : ¬ (s.machine.bitmap f = false ∧ y.bitmap f = true))
    (table : ¬ LowTable s.machine.mem (s.parentCr3 pagePml4) f) : framedMemory s y k f = s.machine.mem f := by
  obtain ⟨free, bitmap, mem⟩ := stack_taken bound nonzero stack
  have notStack : f ≠ k := by
    rintro rfl
    refine other ⟨stack_free tables clone stack nonzero bound, ?_⟩
    rw [bitmap, Function.update_self]
  unfold framedMemory
  rw [framed_other _ _ _ notStack behind, mem]
  refine clone_frames tables clone (fun taken => other ⟨taken.1, ?_⟩) table
  rw [bitmap, Function.update_of_ne notStack]
  exact taken.2

omit tables clone in
theorem framedMemory_behind (s : Kernel σ) (i : Nat) : framedMemory s y k (k + 1) i =
    if i < 5 then (irqWords x.mem s.syscallFramePtr 0 s.userRspSave).getD (17 + i) 0 else x.mem (k + 1) i := by
  obtain ⟨-, -, mem⟩ := stack_taken bound nonzero stack
  unfold framedMemory
  rw [framed_behind, mem]

theorem behind_iff {b : Nat → Bool} (same : b (k + 1) = y.bitmap (k + 1)) :
    (¬ (s.machine.bitmap (k + 1) = false ∧ b (k + 1) = true) → ¬ LowTable s.machine.mem (s.parentCr3 pagePml4) (k + 1) →
      framedMemory s y k (k + 1) = s.machine.mem (k + 1)) ↔
    LowTable s.machine.mem (s.parentCr3 pagePml4) (k + 1) ∨ s.machine.bitmap (k + 1) = false ∧ x.bitmap (k + 1) = true ∨
      ∀ i < 5, s.machine.mem (k + 1) i = (irqWords x.mem s.syscallFramePtr 0 s.userRspSave).getD (17 + i) 0 := by
  obtain ⟨-, bitmap, -⟩ := stack_taken bound nonzero stack
  have taken : b (k + 1) = x.bitmap (k + 1) := by rw [same, bitmap, Function.update_of_ne (by omega)]
  rw [taken]
  by_cases table : LowTable s.machine.mem (s.parentCr3 pagePml4) (k + 1)
  · exact iff_of_true (fun _ none => (none table).elim) (.inl table)
  by_cases new : s.machine.bitmap (k + 1) = false ∧ x.bitmap (k + 1) = true
  · exact iff_of_true (fun none => (none new).elim) (.inr (.inl new))
  have old := clone_frames tables clone new table
  constructor
  · intro kept
    refine .inr (.inr fun i small => ?_)
    rw [← kept new table, framedMemory_behind stack nonzero bound s, if_pos small]
  · rintro (impossible | impossible | words) - -
    · exact (table impossible).elim
    · exact (new impossible).elim
    · funext i
      rw [framedMemory_behind stack nonzero bound s]
      split
      · next small => exact (words i small).symm
      · rw [old]

end Built

theorem not_saved {mem : Mem} (bound : k ≤ maxPages) (saved : ∀ mem' : Mem, mem' (frameOf (addrOf k)) = mem (frameOf (addrOf k)) → ∀ i < 22,
    wordIn mem' (stackFrame k + 8 * .ofNat i) = wordIn mem (stackFrame k + 8 * .ofNat i)) : False := by
  obtain ⟨frame, index⟩ := frameOf_behind bound
  have kept := saved (Function.update mem (k + 1) fun _ => mem (k + 1) 0 + 1)
    (by rw [frameOf_addrOf bound, Function.update_of_ne (by omega)]) 17 (by decide)
  unfold wordIn at kept
  rw [frame, index, Function.update_self] at kept
  have zero : (1 : UInt64) = 0 := by
    have := congrArg (· - mem (k + 1) 0) kept
    grind
  exact absurd zero (by decide)

theorem not_own {idx : Nat} {child : UInt64} (bound : k ≤ maxPages) (slot : freeProc s.procs = some idx)
    (procs : t.procs = Function.update s.procs idx (childOf s.current pid child (addrOf k) (stackFrame k))) : ¬ OwnWrites pagePml4 s t := by
  intro own
  have new : t.procs idx = childOf s.current pid child (addrOf k) (stackFrame k) := by rw [procs, Function.update_self]
  have saved := own.saved idx (freeProc_some slot).2 (by rw [new]; rfl)
  rw [new] at saved
  exact not_saved bound saved

/-- A fork writes only its own memory, and leaves the child's saved registers there, if and only if it is harmless. -/
theorem fork_writes_iff (tables : LowTables s.machine (s.parentCr3 pagePml4)) (next : 0 < s.nextPid)
    (run : (procFork pagePml4).run s = some (pid, t)) : OwnWrites pagePml4 s t ↔ Harmless pagePml4 s := by
  have unborn {y : Machine} : ∀ idx, (s.procs idx).used = false → (({ s with machine := y } : Kernel σ).procs idx).used = true → False := by
    intro idx free used
    exact absurd (free.symm.trans used) (by decide)
  cases procFork_stage next run with
  | @noTables m clone =>
      refine iff_of_true ⟨fun f other table => clone_frames tables clone other table, fun idx free used => (unborn idx free used).elim⟩ ?_
      intro child m' k m'' clone' made
      obtain ⟨rfl, -⟩ := Prod.mk.inj (Option.some.inj (clone.symm.trans clone'))
      exact (made rfl).elim
  | @noStack m m' child clone made stack =>
      refine iff_of_true ⟨fun f other table => ?_, fun idx free used => (unborn idx free used).elim⟩ ?_
      · obtain ⟨mem, grows⟩ := alloc_keeps stack
        change m'.mem f = _
        rw [mem]
        exact clone_frames tables clone (fun taken => other ⟨taken.1, grows f taken.2⟩) table
      · intro child' m₁ k m'' clone' _ stack' nonzero
        obtain ⟨rfl, rfl⟩ := Prod.mk.inj (Option.some.inj (clone.symm.trans clone'))
        obtain ⟨zero, -⟩ := Prod.mk.inj (Option.some.inj (stack.symm.trans stack'))
        exact (nonzero zero.symm).elim
  | @noSlot m m' child k clone made stack nonzero bound full =>
      have behind := behind_iff tables clone stack nonzero bound (b := m'.bitmap) rfl
      constructor
      · intro own child' m₁ k' m'' clone' _ stack' nonzero' bound'
        obtain ⟨rfl, rfl⟩ := Prod.mk.inj (Option.some.inj (clone.symm.trans clone'))
        obtain ⟨address, rfl⟩ := Prod.mk.inj (Option.some.inj (stack.symm.trans stack'))
        obtain rfl : k = k' := by rw [← frameOf_addrOf bound, address, frameOf_addrOf bound']
        exact ⟨full, behind.mp (own.frames (k + 1))⟩
      · intro harmless
        have ok := (harmless child m k m' clone made stack nonzero bound).2
        refine ⟨fun f other table => ?_, fun idx free used => (unborn idx free used).elim⟩
        by_cases here : f = k + 1
        · rw [here] at other table ⊢
          exact behind.mpr ok other table
        · exact framedMemory_other tables clone stack nonzero bound here other table
  | @child m m' child k idx pid t clone made stack nonzero bound slot positive machine procs =>
      refine iff_of_false (fun own => not_own bound slot procs own) fun harmless => ?_
      have none := (harmless child m k m' clone made stack nonzero bound).1
      rw [slot] at none
      cases none

theorem next_oneProcess (f i : Nat) : Mm.next (oneProcess.machine.mem f i) = none := if_pos (show (0 : UInt64) &&& pgPresent = 0 by decide)

theorem lowTable_oneProcess {f : Nat} (table : LowTable oneProcess.machine.mem 0x1000 f) : f = 1 := by
  obtain ⟨q, path, at_⟩ := table
  cases q with
  | nil => exact (Option.some.inj at_).symm
  | cons i q =>
      obtain ⟨g, here, -⟩ := tableAt_cons_some at_
      rw [next_oneProcess] at here
      cases here

theorem lowTables_oneProcess : LowTables oneProcess.machine 0x1000 where
  aligned := by decide
  bound := by decide
  tree := by
    have root {q : List Nat} {f : Nat} (at_ : tableAt Mm.next oneProcess.machine.mem (frameOf 0x1000) q = some f) : q = [] := by
      cases q with
      | nil => rfl
      | cons i q =>
          obtain ⟨g, here, -⟩ := tableAt_cons_some at_
          rw [next_oneProcess] at here
          cases here
    refine ⟨fun q q' f path path' at_ at' => ?_⟩
    rw [root at_, root at']
  plain := by
    intro q f i g path at_ here
    rw [next_oneProcess] at here
    cases here
  taken := by
    intro f table
    rw [lowTable_oneProcess table]
    rfl

theorem oneProcess_forks : ∃ t, (procFork 0x1000).run oneProcess = some (2, t) := by
  have value : ((procFork 0x1000).run oneProcess).map Prod.fst = some 2 := by decide +kernel
  obtain ⟨⟨pid, t⟩, run, rfl⟩ := Option.map_eq_some_iff.mp value
  exact ⟨t, run⟩

theorem fork_writes_iff_first : ∃ t, (procFork 0x1000).run oneProcess = some (2, t) ∧
    (OwnWrites 0x1000 oneProcess t ↔ Harmless 0x1000 oneProcess) := by
  obtain ⟨t, run⟩ := oneProcess_forks
  exact ⟨t, run, fork_writes_iff lowTables_oneProcess (by decide) run⟩

/-- The first process forks. -/
theorem first_fork_behind : ¬ ∀ (s t : Kernel Fs.Disk) (pid : Int32), LowTables s.machine (s.parentCr3 0x1000) → 0 < s.nextPid →
    (procFork 0x1000).run s = some (pid, t) → OwnWrites 0x1000 s t := by
  intro all
  obtain ⟨t, run⟩ := oneProcess_forks
  have own := all oneProcess t 2 lowTables_oneProcess (by decide) run
  generalize value : (2 : Int32) = pid at run
  cases procFork_stage (by decide) run with
  | noTables => cases value
  | noStack => cases value
  | noSlot => cases value
  | child clone made stack nonzero bound slot positive machine procs => exact not_own bound slot procs own

end SwiftBSD.Proof.Sched
