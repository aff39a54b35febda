import SwiftBSD.Proof.Mm.Count
import SwiftBSD.Userland.Syscall

namespace SwiftBSD.Proof.Userland
open Lib SwiftBSD.User SwiftBSD.Userland

variable {addr length offset behind : UInt64} {prot flags fd : Int32} {s s' : Space} {result : UInt64}

theorem leNat_append (l m : List UInt8) : leNat (l ++ m) = leNat l + 256 ^ l.length * leNat m := by
  induction l with
  | nil => simp [leNat]
  | cons b l ih =>
      rw [List.cons_append, leNat, leNat, ih, List.length_cons, Nat.pow_succ']
      ring

theorem word_toNat (a : MmapArgs) : a.word.toNat = a.flags.toUInt32.toNat + 4294967296 * a.fd.toUInt32.toNat := by
  have flags := a.flags.toUInt32.toNat_lt
  have fd := a.fd.toUInt32.toNat_lt
  have first : a.bytes.take 8 = leBytes 4 a.flags.toUInt32.toNat ++ leBytes 4 a.fd.toUInt32.toNat := by
    unfold MmapArgs.bytes
    rw [List.append_assoc, List.append_assoc, List.take_left' (by rw [List.length_append, length_leBytes, length_leBytes])]
  unfold MmapArgs.word
  rw [first, leNat_append, length_leBytes, leNat_leBytes, leNat_leBytes, UInt64.toNat_ofNat']
  omega

theorem word_low (a : MmapArgs) : a.word.toUInt32.toInt32 = a.flags := by
  have low : a.word.toUInt32 = a.flags.toUInt32 := by
    apply UInt32.toNat_inj.mp
    have := a.flags.toUInt32.toNat_lt
    rw [UInt64.toNat_toUInt32, word_toNat]
    omega
  rw [low, Int32.toInt32_toUInt32]

theorem word_high (a : MmapArgs) : (a.word >>> 32).toUInt32.toInt32 = a.fd := by
  have high : (a.word >>> 32).toUInt32 = a.fd.toUInt32 := by
    apply UInt32.toNat_inj.mp
    have flags := a.flags.toUInt32.toNat_lt
    have fd := a.fd.toUInt32.toNat_lt
    rw [UInt64.toNat_toUInt32, UInt64.toNat_shiftRight, word_toNat]
    have shift : (32 : UInt64).toNat % 64 = 32 := rfl
    rw [shift, Nat.shiftRight_eq_div_pow]
    omega
  rw [high, Int32.toInt32_toUInt32]

/-- Every entry that the call writes has the arguments of the call. -/
def Produced (s s' : Space) (prot flags fd : Int32) (offset : UInt64) : Prop :=
  ∀ i, s'.vmas.entry i ≠ s.vmas.entry i →
    (s'.vmas.entry i).prot = prot ∧ (s'.vmas.entry i).flags = flags ∧ (s'.vmas.entry i).fd = fd ∧ (0 ≤ fd → (s'.vmas.entry i).foff = offset)

theorem callMmap_run (addr length : UInt64) (prot flags fd : Int32) (offset behind : UInt64) (s : Space) :
    ∃ result s', (callMmap (mmap addr length prot flags fd offset) behind).run s = some (result, s') ∧
      ((length = 0 ∨ vmaAllocSlot s.vmas = none) ∧ s' = s ∨
      length ≠ 0 ∧ ∃ i start stop, vmaAllocSlot s.vmas = some i ∧
        s'.vmas.entry = Function.update s.vmas.entry i ⟨start, stop, flags, flags, fd, if 0 ≤ fd then behind else 0, true⟩) := by
  unfold callMmap mmap scMmap
  dsimp only
  rw [word_low, word_high]
  by_cases zero : length = 0
  · rw [if_pos zero]
    exact ⟨_, _, rfl, .inl ⟨.inl zero, rfl⟩⟩
  rw [if_neg zero, run_bind_some (x := get) (s := s) rfl]
  cases slot : vmaAllocSlot s.vmas with
  | none => exact ⟨_, _, rfl, .inl ⟨.inr rfl, rfl⟩⟩
  | some i => exact ⟨_, _, rfl, .inr ⟨zero, i, _, _, rfl, rfl⟩⟩

theorem slot_unused {t : Vmas} {i : Nat} (slot : vmaAllocSlot t = some i) : (t.entry i).used = false := by
  obtain ⟨-, -, unused, -⟩ := firstFrom_some slot
  simpa using unused

/-- The mapping gets the arguments of the call if and only if there is no mapping, or the protection happens to equal the flags and, where
there is a file, the offset happens to be on the stack of the kernel. -/
theorem mmap_produced_iff (addr length : UInt64) (prot flags fd : Int32) (offset behind : UInt64) (s : Space) :
    ∃ result s', (callMmap (mmap addr length prot flags fd offset) behind).run s = some (result, s') ∧
      (Produced s s' prot flags fd offset ↔
        length = 0 ∨ vmaAllocSlot s.vmas = none ∨ prot = flags ∧ (0 ≤ fd → behind = offset)) := by
  obtain ⟨result, s', run, ⟨failed, rfl⟩ | ⟨nonzero, i, start, stop, slot, entry⟩⟩ :=
    callMmap_run addr length prot flags fd offset behind s
  · refine ⟨result, s', run, fun _ => ?_, fun _ i changed => absurd rfl changed⟩
    rcases failed with zero | full
    · exact .inl zero
    · exact .inr (.inl full)
  have here : s'.vmas.entry i = ⟨start, stop, flags, flags, fd, if 0 ≤ fd then behind else 0, true⟩ := by
    rw [entry, Function.update_self]
  have changed : s'.vmas.entry i ≠ s.vmas.entry i := by
    intro same
    have unused := slot_unused slot
    rw [← same, here] at unused
    cases unused
  refine ⟨result, s', run, fun produced => ?_, fun right j other => ?_⟩
  · obtain ⟨protection, -, -, place⟩ := produced i changed
    rw [here] at protection place
    refine .inr (.inr ⟨protection.symm, fun file => ?_⟩)
    have := place file
    rwa [if_pos file] at this
  · obtain ⟨same, place⟩ : prot = flags ∧ (0 ≤ fd → behind = offset) := by
      rcases right with zero | full | right
      · exact absurd zero nonzero
      · rw [slot] at full
        cases full
      · exact right
    have here' : j = i := by
      by_contra ne
      rw [entry, Function.update_of_ne ne] at other
      exact other rfl
    subst here'
    rw [here]
    refine ⟨same.symm, rfl, rfl, fun file => ?_⟩
    dsimp only
    rw [if_pos file, place file]

def noMappings : Space := ⟨⟨fun _ => ⟨0, 0, 0, 0, 0, 0, false⟩, 0⟩, ⟨fun _ _ => 0, fun _ => false, 16, 16, 0x1000, Mm.smallMachine_bounded⟩, []⟩

/-- `mmap(0, 4096, PROT_READ | PROT_WRITE, MAP_PRIVATE | MAP_ANONYMOUS, -1, 0)` gives a page that may be written and executed. -/
theorem mmap_anonymous_prot : ∃ result s', (callMmap (mmap 0 4096 3 6 (-1) 0) 0).run noMappings = some (result, s') ∧
    (s'.vmas.entry 0).prot = 6 ∧ ¬Produced noMappings s' 3 6 (-1) 0 := by
  have run : ((callMmap (mmap 0 4096 3 6 (-1) 0) 0).run noMappings).map (fun r => ((r.2.vmas.entry 0).used, (r.2.vmas.entry 0).prot)) =
      some (true, 6) := by decide +kernel
  obtain ⟨⟨result, s'⟩, run, entry⟩ := Option.map_eq_some_iff.mp run
  obtain ⟨used, prot⟩ := Prod.mk.inj entry
  refine ⟨result, s', run, prot, fun produced => ?_⟩
  have wrong := produced 0 fun same => by
    rw [same] at used
    cases used
  exact absurd (prot.symm.trans wrong.1) (by decide)

end SwiftBSD.Proof.Userland
