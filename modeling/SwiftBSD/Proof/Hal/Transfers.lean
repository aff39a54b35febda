import SwiftBSD.Hal.Ahci
import SwiftBSD.Lib.Moves

namespace SwiftBSD.Proof.Hal
open Lib SwiftBSD.Hal

variable {s t : Hba} {p : AhciPort} {i slot n count : Nat} {lba : UInt64} {port : Int} {buf : Nat → UInt8}

theorem word64_halves (a : UInt64) : word64 a.toUInt32 (a >>> 32).toUInt32 = a.toNat := by
  have bound := a.toNat_lt
  have high : (a >>> 32).toNat = a.toNat / 2 ^ 32 := by
    rw [UInt64.toNat_shiftRight]
    exact Nat.shiftRight_eq_div_pow _ _
  unfold word64
  rw [UInt64.toNat_toUInt32, UInt64.toNat_toUInt32, high]
  omega

theorem toNat_byte (a : UInt64) (k : Nat) (small : k < 64) : (a >>> .ofNat k).toUInt8.toNat = a.toNat / 2 ^ k % 256 := by
  have shift : (UInt64.ofNat k).toNat % 64 = k := by
    rw [UInt64.toNat_ofNat']
    omega
  rw [UInt64.toNat_toUInt8, UInt64.toNat_shiftRight, shift, Nat.shiftRight_eq_div_pow]

theorem fisLba_fis (command : UInt8) (low : lba.toNat < 2 ^ 48) (batch : Nat) : fisLba (fis command lba batch) = lba.toNat := by
  have b₀ : (fis command lba batch 4).toNat = lba.toNat % 256 := UInt64.toNat_toUInt8 lba
  have b₁ : (fis command lba batch 5).toNat = lba.toNat / 2 ^ 8 % 256 := toNat_byte lba 8 (by decide)
  have b₂ : (fis command lba batch 6).toNat = lba.toNat / 2 ^ 16 % 256 := toNat_byte lba 16 (by decide)
  have b₃ : (fis command lba batch 8).toNat = lba.toNat / 2 ^ 24 % 256 := toNat_byte lba 24 (by decide)
  have b₄ : (fis command lba batch 9).toNat = lba.toNat / 2 ^ 32 % 256 := toNat_byte lba 32 (by decide)
  have b₅ : (fis command lba batch 10).toNat = lba.toNat / 2 ^ 40 % 256 := toNat_byte lba 40 (by decide)
  unfold fisLba
  rw [b₀, b₁, b₂, b₃, b₄, b₅]
  omega

theorem fisCount_fis (command : UInt8) (lba : UInt64) (some_ : 0 < n) (small : n ≤ 16) : fisCount (fis command lba n) = n := by
  have low : (fis command lba n 12).toNat = n := UInt8.toNat_ofNat_of_lt' (by change n < 256; omega)
  have high : (fis command lba n 13).toNat = 0 := by
    change (UInt8.ofNat (n >>> 8)).toNat = 0
    rw [Nat.shiftRight_eq_div_pow, Nat.div_eq_of_lt (by omega)]
    rfl
  unfold fisCount
  rw [low, high]
  dsimp only
  rw [if_neg (by omega)]
  omega

theorem prdtEntry_bytes (p : AhciPort) (some_ : 0 < n) (small : n ≤ 16) : ((prdtEntry p n).dbc &&& 0x3FFFFF).toNat + 1 = n * 512 := by
  have value : (prdtEntry p n).dbc.toNat = n * 512 - 1 := UInt32.toNat_ofNat_of_lt' (by change n * 512 - 1 < 2 ^ 32; omega)
  have mask : (n * 512 - 1) &&& (2 ^ 22 - 1) = (n * 512 - 1) % 2 ^ 22 := Nat.and_two_pow_sub_one_eq_mod _ _
  rw [UInt32.toNat_and, value]
  change (n * 512 - 1 &&& 2 ^ 22 - 1) + 1 = n * 512
  rw [mask]
  omega

def commandOf (p : AhciPort) (write : Bool) (lba : UInt64) (n : Nat) : Command := ⟨write, lba.toNat, n, p.bufPhys.toNat, n * 512⟩

def directionOf (write : Bool) : UInt32 := if write then 1 else 0

def codeOf (write : Bool) : UInt8 := if write then 0x35 else 0x25

theorem dw0_direction (p : AhciPort) (write : Bool) : (cmdHdr p (directionOf write)).dw0 = if write then 0x10045 else 0x10005 := by
  cases write with
  | false =>
      change (5 : UInt32) ||| (0 : UInt32) <<< 6 ||| 0x10000 = 0x10005
      decide
  | true =>
      change (5 : UInt32) ||| (1 : UInt32) <<< 6 ||| 0x10000 = 0x10045
      decide

theorem fetch_fill (p : AhciPort) (slot : Nat) (write : Bool) (low : lba.toNat < 2 ^ 48) (some_ : 0 < n) (small : n ≤ 16) :
    fetch (fillCommand p slot (directionOf write) (codeOf write) lba n) slot = some (commandOf p write lba n) := by
  have header : (fillCommand p slot (directionOf write) (codeOf write) lba n).clb slot = cmdHdr p (directionOf write) := Function.update_self _ _ _
  have length : (cmdHdr p (directionOf write)).dw0 &&& 0x1F = 5 := by
    rw [dw0_direction]
    cases write <;> decide
  have entries : (cmdHdr p (directionOf write)).dw0 >>> 16 = 1 := by
    rw [dw0_direction]
    cases write <;> decide
  have table : word64 (cmdHdr p (directionOf write)).ctba (cmdHdr p (directionOf write)).ctbau = p.ctPhys.toNat := word64_halves _
  have direction : decide ((cmdHdr p (directionOf write)).dw0 &&& 0x40 ≠ 0) = write := by
    rw [dw0_direction]
    cases write <;> decide
  have code : codeOf write = if (cmdHdr p (directionOf write)).dw0 &&& 0x40 ≠ 0 then 0x35 else 0x25 := by
    rw [dw0_direction]
    cases write <;> decide
  have address : word64 (prdtEntry p n).dba (prdtEntry p n).dbau = p.bufPhys.toNat := word64_halves _
  unfold fetch
  dsimp only
  rw [header]
  rw [if_pos ⟨length, entries, table, rfl, rfl, rfl, code⟩]
  unfold commandOf fillCommand
  dsimp only
  rw [direction, fisLba_fis _ low, fisCount_fis _ _ some_ small, address, prdtEntry_bytes p some_ small]

structure Issued (s t : Hba) (i : Nat) (c : Command) : Prop where
  ok : t.ok = s.ok
  nports : t.nports = s.nports
  initialized : (t.port i).initialized = (s.port i).initialized
  buffer : (t.port i).bufPhys = (s.port i).bufPhys
  idle : (t.port i).ci = (s.port i).ci
  tfd : (t.port i).tfd = (s.port i).tfd
  issued : (t.port i).issued = (s.port i).issued ++ [c]
  sector : (t.port i).sector = if c.write then dmaOut c s.mem (s.port i).sector else (s.port i).sector
  mem : t.mem = if c.write then s.mem else dmaIn c (s.port i).sector s.mem

theorem setPort_same (s : Hba) (i : Nat) (p : AhciPort) : (s.setPort i p).port i = p := Function.update_self _ _ _

theorem execute_command {c : Command} (fetched : fetch (s.port i) slot = some c) (length : c.bytes = c.count * 512) :
    ∃ t, execute i slot s = some t ∧ Issued s t i c := by
  unfold execute
  dsimp only
  rw [fetched]
  dsimp only
  rw [if_pos length]
  cases direction : c.write with
  | true =>
      refine ⟨_, rfl, ?_⟩
      refine ⟨rfl, rfl, ?_, ?_, ?_, ?_, ?_, ?_, ?_⟩ <;> simp only [setPort_same, direction, if_true]
      rfl
  | false =>
      refine ⟨_, rfl, ?_⟩
      refine ⟨rfl, rfl, ?_, ?_, ?_, ?_, ?_, ?_, ?_⟩ <;> simp [setPort_same, direction]

theorem issue_run (write : Bool) (idle : (s.port i).ci = 0) (fine : (s.port i).tfd &&& 1 = 0) (low : lba.toNat < 2 ^ 48) (some_ : 0 < n)
    (small : n ≤ 16) : ∃ t, (issue i (directionOf write) (codeOf write) lba n).run s = some (false, t) ∧
      Issued s t i (commandOf (s.port i) write lba n) := by
  have fetched : fetch ((s.setPort i (fillCommand (s.port i) 0 (directionOf write) (codeOf write) lba n)).port i) 0 =
      some (commandOf (s.port i) write lba n) := by
    rw [setPort_same]
    exact fetch_fill _ 0 write low some_ small
  obtain ⟨t, run, issued⟩ := execute_command fetched rfl
  have same : (s.setPort i (fillCommand (s.port i) 0 (directionOf write) (codeOf write) lba n)).port i =
    fillCommand (s.port i) 0 (directionOf write) (codeOf write) lba n := setPort_same _ _ _
  have error : decide ((t.port i).tfd &&& 1 ≠ 0) = false := by
    rw [issued.tfd, same]
    exact decide_eq_false (not_not.mpr fine)
  refine ⟨t, ?_, ?_⟩
  · unfold issue
    rw [run_bind_some (x := get) rfl, idle]
    dsimp only [freeSlot]
    rw [if_pos rfl]
    dsimp only
    rw [run]
    dsimp only
    rw [run_bind_some (x := set t) rfl, error]
    rfl
  · obtain ⟨ok, nports, initialized, buffer, ci, tfd, list, sector, mem⟩ := issued
    rw [same] at initialized buffer ci tfd list sector mem
    exact ⟨ok, nports, initialized, buffer, ci, tfd, list, sector, mem⟩

def Longer (i : Nat) (s t : Hba) : Prop := (s.port i).issued <+: (t.port i).issued

instance : IsPreorder Hba (Longer i) where
  refl _ := List.prefix_rfl
  trans _ _ _ first second := List.IsPrefix.trans first second

theorem issue_longer (i : Nat) (w : UInt32) (command : UInt8) (lba : UInt64) (n : Nat) : Moves (Longer i) (issue i w command lba n) := by
  intro s r t run
  unfold issue at run
  rw [run_bind_some (x := get) rfl] at run
  split at run
  · obtain ⟨-, rfl⟩ := pure_run run
    exact refl_of _ _
  next slot _ =>
  split at run
  · cases run
  next u executed =>
  rw [run_bind_some (x := set u) rfl] at run
  obtain ⟨-, rfl⟩ := pure_run run
  unfold execute at executed
  dsimp only at executed
  unfold Longer
  split at executed
  · cases executed
  next c _ =>
  split at executed
  swap
  · cases executed
  have before : ((s.setPort i (fillCommand (s.port i) slot w command lba n)).port i).issued = (s.port i).issued := by
    rw [setPort_same]
    rfl
  rw [before] at executed
  split at executed
  · cases executed
    rw [setPort_same]
    exact List.prefix_append _ _
  · cases executed
    change _ <+: ((Hba.setPort _ i _).port i).issued
    rw [setPort_same]
    exact List.prefix_append _ _

theorem modify_longer {g : Hba → Hba} (same : ∀ s, ((g s).port i).issued = (s.port i).issued) : Moves (Longer i) (modify g : HbaM Unit) := by
  refine .modify fun s => ?_
  exact ⟨[], (List.append_nil _).trans (same s).symm⟩

theorem readLoop_longer (i fuel : Nat) (lba : UInt64) (offset total : Nat) (buf : Nat → UInt8) :
    Moves (Longer i) (readLoop i fuel lba offset total buf) := by
  induction fuel generalizing lba offset total buf with
  | zero => exact .failure
  | succ fuel ih =>
      unfold readLoop
      split
      · exact .pure _
      refine .bind (issue_longer _ _ _ _ _) fun failed => ?_
      split
      · exact .pure _
      refine .bind (modify_longer fun s => by rw [setPort_same]) fun _ => .bind .get fun s => ?_
      split
      · exact .bind .failure fun _ => ih _ _ _ _
      · exact ih _ _ _ _

theorem writeLoop_longer (i : Nat) (buf : Nat → UInt8) (fuel : Nat) (lba : UInt64) (offset total : Nat) :
    Moves (Longer i) (writeLoop i buf fuel lba offset total) := by
  induction fuel generalizing lba offset total with
  | zero => exact .failure
  | succ fuel ih =>
      unfold writeLoop
      split
      · exact .pure _
      refine .bind (modify_longer fun s => rfl) fun _ => .bind (issue_longer _ _ _ _ _) fun failed => ?_
      split
      · exact .pure _
      split
      · exact .bind .failure fun _ => ih _ _ _
      · exact ih _ _ _

/-- The sectors of the commands are `[a, b)`, in order. -/
inductive Covers : Nat → List Command → Nat → Prop
  | done {a : Nat} : Covers a [] a
  | next {a b : Nat} {c : Command} {cs : List Command} (here : c.lba = a) (some_ : 0 < c.count) (rest : Covers (a + c.count) cs b) :
      Covers a (c :: cs) b

/-- The controller reaches only the buffer of the port. -/
def Inside (p : AhciPort) (c : Command) : Prop := p.bufPhys.toNat ≤ c.dba ∧ c.dba + c.bytes ≤ p.bufPhys.toNat + 4096

/-- The commands that a call has issued cover its sectors, and stay inside the buffer. -/
def Commanded (p q : AhciPort) (write : Bool) (lba n : Nat) : Prop :=
  ∃ cs, q.issued = p.issued ++ cs ∧ Covers lba cs (lba + n) ∧ ∀ c ∈ cs, c.write = write ∧ Inside p c

/-- A call on a port that has not been started, or with a command under way, is left out. -/
structure Ready (s : Hba) (port : Int) : Prop where
  usable : usable s port = true
  idle : (s.port port.toNat).ci = 0
  fine : (s.port port.toNat).tfd &&& 1 = 0

def ReadDone (s : Hba) (port : Int) (lba : UInt64) (count : Int32) : Prop :=
  ∀ buf, ∃ r t, (ahciRead port lba buf count).run s = some ((count.toInt * 512, r), t) ∧
    (∀ k < count.toInt.toNat, ∀ b < 512, r (k * 512 + b) = (s.port port.toNat).sector (lba.toNat + k) b) ∧
    (t.port port.toNat).sector = (s.port port.toNat).sector ∧
    Commanded (s.port port.toNat) (t.port port.toNat) false lba.toNat count.toInt.toNat

/-- `ahci_write` stores the sectors and no others, and a later call of `ahci_read` returns them. -/
def WriteDone (s : Hba) (port : Int) (lba : UInt64) (count : Int32) : Prop :=
  ∀ buf, ∃ t, (ahciWrite port lba buf count).run s = some (count.toInt * 512, t) ∧
    (∀ n b, (t.port port.toNat).sector n b = if lba.toNat ≤ n ∧ n < lba.toNat + count.toInt.toNat ∧ b < 512 then
      buf ((n - lba.toNat) * 512 + b) else (s.port port.toNat).sector n b) ∧
    Commanded (s.port port.toNat) (t.port port.toNat) true lba.toNat count.toInt.toNat ∧
    ∀ buf', ∃ r u, (ahciRead port lba buf' count).run t = some ((count.toInt * 512, r), u) ∧ ∀ k < count.toInt.toNat * 512, r k = buf k

theorem batchOf_bounds {total : Nat} (some_ : 0 < total) : 0 < batchOf total ∧ batchOf total ≤ 16 ∧ batchOf total ≤ total := by
  unfold batchOf
  split <;> omega

section Round
variable {total : Nat} (idle : (s.port i).ci = 0) (fine : (s.port i).tfd &&& 1 = 0) (low : lba.toNat < 2 ^ 48) (some_ : 0 < total)
  {offset : Nat} (fits : offset + batchOf total * 512 < 2 ^ 31) (fuel : Nat) (buf : Nat → UInt8)
include idle fine low some_ fits

theorem readLoop_round : ∃ t, Issued s t i (commandOf (s.port i) false lba (batchOf total)) ∧
    (readLoop i (fuel+1) lba offset total buf).run s =
      (readLoop i fuel (lba + .ofNat (batchOf total)) (offset + batchOf total * 512) (total - batchOf total)
        (copyIn t.mem (t.port i).bufPhys.toNat offset (batchOf total * 512) buf)).run t := by
  obtain ⟨positive, small, -⟩ := batchOf_bounds some_
  obtain ⟨u, run, issued⟩ := issue_run false idle fine low positive small
  refine ⟨u.setPort i { u.port i with status := 0 }, ?_, ?_⟩
  · obtain ⟨ok, nports, initialized, buffer, ci, tfd, list, sector, mem⟩ := issued
    refine ⟨ok, nports, ?_, ?_, ?_, ?_, ?_, ?_, mem⟩ <;> rw [setPort_same]
    exacts [initialized, buffer, ci, tfd, list, sector]
  · rw [readLoop, if_neg (by omega)]
    have run' : (issue i 0 0x25 lba (batchOf total)).run s = some (false, u) := run
    dsimp only
    rw [run_bind_some run', if_neg (by decide), run_bind_some (x := modify _) rfl, run_bind_some (x := get) rfl, if_neg (by omega)]

theorem writeLoop_round : ∃ t, Issued { s with mem := copyOut buf offset (s.port i).bufPhys.toNat (batchOf total * 512) s.mem } t i
      (commandOf (s.port i) true lba (batchOf total)) ∧
    (writeLoop i buf (fuel+1) lba offset total).run s =
      (writeLoop i buf fuel (lba + .ofNat (batchOf total)) (offset + batchOf total * 512) (total - batchOf total)).run t := by
  obtain ⟨positive, small, -⟩ := batchOf_bounds some_
  obtain ⟨u, run, issued⟩ := issue_run (s := { s with mem := copyOut buf offset (s.port i).bufPhys.toNat (batchOf total * 512) s.mem })
    true idle fine low positive small
  refine ⟨u, issued, ?_⟩
  rw [writeLoop, if_neg (by omega)]
  have run' : (issue i 1 0x35 lba (batchOf total)).run
    { s with mem := copyOut buf offset (s.port i).bufPhys.toNat (batchOf total * 512) s.mem } = some (false, u) := run
  dsimp only
  rw [run_bind_some (x := modify _) rfl, run_bind_some run', if_neg (by decide), if_neg (by omega)]

end Round

theorem readLoop_end {fuel offset : Nat} (some_ : 0 < fuel) : (readLoop i fuel lba offset 0 buf).run s = some ((↑offset, buf), s) := by
  obtain ⟨m, rfl⟩ := Nat.exists_eq_succ_of_ne_zero (Nat.pos_iff_ne_zero.mp some_)
  unfold readLoop
  rw [if_pos rfl]
  rfl

theorem writeLoop_end {fuel offset : Nat} (some_ : 0 < fuel) : (writeLoop i buf fuel lba offset 0).run s = some (↑offset, s) := by
  obtain ⟨m, rfl⟩ := Nat.exists_eq_succ_of_ne_zero (Nat.pos_iff_ne_zero.mp some_)
  unfold writeLoop
  rw [if_pos rfl]
  rfl

theorem commanded_one {write : Bool} (some_ : 0 < n) (small : n ≤ 8)
    (issued : (t.port i).issued = (s.port i).issued ++ [commandOf (s.port i) write lba n]) :
    Commanded (s.port i) (t.port i) write lba.toNat n := by
  refine ⟨_, issued, .next rfl some_ .done, fun c member => ?_⟩
  obtain rfl := List.mem_singleton.mp member
  refine ⟨rfl, Nat.le_refl _, ?_⟩
  change (s.port i).bufPhys.toNat + n * 512 ≤ _
  omega

section Call
variable {count : Int32} (ready : Ready s port) (some_ : 1 ≤ count.toInt) (low : lba.toNat + count.toInt.toNat ≤ 2 ^ 48)
include ready some_ low

theorem read_one (small : count.toInt.toNat ≤ 8) : ReadDone s port lba count := by
  intro buf
  have batch : batchOf count.toInt.toNat = count.toInt.toNat := if_neg (by omega)
  obtain ⟨t, issued, run⟩ := readLoop_round ready.idle ready.fine (by omega : lba.toNat < 2 ^ 48) (by omega : 0 < count.toInt.toNat)
    (by rw [batch]; omega : 0 + batchOf count.toInt.toNat * 512 < 2 ^ 31) count.toInt.toNat buf
  rw [batch, Nat.sub_self, readLoop_end (by omega)] at run
  rw [batch] at issued
  refine ⟨copyIn t.mem (t.port port.toNat).bufPhys.toNat 0 (count.toInt.toNat * 512) buf, t, ?_, fun k inside b byte => ?_, issued.sector,
    commanded_one (by omega) small issued.issued⟩
  · unfold ahciRead
    rw [run_bind_some (x := get) rfl, if_pos ready.usable, run]
    congr 3
    omega
  · have place : k * 512 + b < count.toInt.toNat * 512 := by omega
    unfold copyIn
    rw [if_pos ⟨by omega, by omega⟩, issued.mem, issued.buffer]
    change dmaIn (commandOf (s.port port.toNat) false lba count.toInt.toNat) _ _ _ = _
    unfold dmaIn commandOf
    dsimp only
    rw [if_pos ⟨by omega, by omega⟩]
    congr 1
    · omega
    · omega

theorem write_one (small : count.toInt.toNat ≤ 8) : WriteDone s port lba count := by
  intro buf
  have batch : batchOf count.toInt.toNat = count.toInt.toNat := if_neg (by omega)
  obtain ⟨t, issued, run⟩ := writeLoop_round ready.idle ready.fine (by omega : lba.toNat < 2 ^ 48) (by omega : 0 < count.toInt.toNat)
    (by rw [batch]; omega : 0 + batchOf count.toInt.toNat * 512 < 2 ^ 31) count.toInt.toNat buf
  rw [batch, Nat.sub_self, writeLoop_end (by omega)] at run
  rw [batch] at issued
  have sector (n b : Nat) : (t.port port.toNat).sector n b = if lba.toNat ≤ n ∧ n < lba.toNat + count.toInt.toNat ∧ b < 512 then
      buf ((n - lba.toNat) * 512 + b) else (s.port port.toNat).sector n b := by
    rw [issued.sector]
    change dmaOut (commandOf (s.port port.toNat) true lba count.toInt.toNat) _ _ n b = _
    unfold dmaOut commandOf
    dsimp only
    split
    · next inside =>
        unfold copyOut
        rw [if_pos ⟨by omega, by omega⟩]
        congr 1
        omega
    · rfl
  have after : Ready t port := by
    have use := ready.usable
    refine ⟨?_, issued.idle.trans ready.idle, (congrArg (· &&& 1) issued.tfd).trans ready.fine⟩
    unfold usable at use ⊢
    rw [issued.ok, issued.nports, issued.initialized]
    exact use
  refine ⟨t, ?_, sector, commanded_one (by omega) small issued.issued, fun buf' => ?_⟩
  · unfold ahciWrite
    rw [run_bind_some (x := get) rfl, if_pos ready.usable, run]
    congr 3
    omega
  · obtain ⟨r, u, call, read, -⟩ := read_one after some_ low small buf'
    refine ⟨r, u, call, fun k inside => ?_⟩
    have value := read (k / 512) (by omega) (k % 512) (Nat.mod_lt _ (by decide))
    rw [sector, if_pos ⟨by omega, by omega, Nat.mod_lt _ (by decide)⟩] at value
    rw [show k / 512 * 512 + k % 512 = k by omega, show (lba.toNat + k / 512 - lba.toNat) * 512 + k % 512 = k by omega] at value
    exact value

end Call

theorem first_outside {count : Int32} {write : Bool} {u : Hba} (large : 8 < count.toInt.toNat)
    (first : (u.port port.toNat).issued = (s.port port.toNat).issued ++ [commandOf (s.port port.toNat) write lba (batchOf count.toInt.toNat)])
    (longer : Longer port.toNat u t) : ¬Commanded (s.port port.toNat) (t.port port.toNat) write lba.toNat count.toInt.toNat := by
  rintro ⟨cs, issued, -, inside⟩
  obtain ⟨rest, later⟩ := longer
  rw [first, issued, List.append_assoc] at later
  have member : commandOf (s.port port.toNat) write lba (batchOf count.toInt.toNat) ∈ cs := by
    rw [← List.append_cancel_left later]
    exact List.mem_append_left _ (List.mem_singleton_self _)
  have fits := (inside _ member).2.2
  change (s.port port.toNat).bufPhys.toNat + batchOf count.toInt.toNat * 512 ≤ _ at fits
  unfold batchOf at fits
  split at fits
  · omega
  · omega

section Many
variable {count : Int32} (ready : Ready s port) (many : 8 < count.toInt) (low : lba.toNat + count.toInt.toNat ≤ 2 ^ 48)
include ready many low

theorem read_many : ¬ReadDone s port lba count := by
  intro done
  have small : batchOf count.toInt.toNat ≤ 16 := (batchOf_bounds (by omega)).2.1
  obtain ⟨r, t, run, -, -, commanded⟩ := done fun _ => 0
  obtain ⟨u, issued, round⟩ := readLoop_round ready.idle ready.fine (by omega : lba.toNat < 2 ^ 48) (by omega : 0 < count.toInt.toNat)
    (by omega : 0 + batchOf count.toInt.toNat * 512 < 2 ^ 31) count.toInt.toNat fun _ => 0
  unfold ahciRead at run
  rw [run_bind_some (x := get) rfl, if_pos ready.usable, round] at run
  exact first_outside (by omega) issued.issued (readLoop_longer _ _ _ _ _ _ _ _ _ run) commanded

theorem write_many : ¬WriteDone s port lba count := by
  intro done
  have small : batchOf count.toInt.toNat ≤ 16 := (batchOf_bounds (by omega)).2.1
  obtain ⟨t, run, -, commanded, -⟩ := done fun _ => 0
  obtain ⟨u, issued, round⟩ := writeLoop_round ready.idle ready.fine (by omega : lba.toNat < 2 ^ 48) (by omega : 0 < count.toInt.toNat)
    (by omega : 0 + batchOf count.toInt.toNat * 512 < 2 ^ 31) count.toInt.toNat fun _ => 0
  unfold ahciWrite at run
  rw [run_bind_some (x := get) rfl, if_pos ready.usable, round] at run
  exact first_outside (by omega) issued.issued (writeLoop_longer _ _ _ _ _ _ _ _ _ run) commanded

end Many

/-- Both calls do what they should if and only if there are at most 8 sectors. -/
theorem transfers_iff {count : Int32} (ready : Ready s port) (some_ : 1 ≤ count.toInt) (low : lba.toNat + count.toInt.toNat ≤ 2 ^ 48) :
    (ReadDone s port lba count ↔ count.toInt ≤ 8) ∧ (WriteDone s port lba count ↔ count.toInt ≤ 8) := by
  refine ⟨⟨fun done => ?_, fun few => read_one ready some_ low (by omega)⟩, ⟨fun done => ?_, fun few => write_one ready some_ low (by omega)⟩⟩
  · by_contra many
    exact read_many ready (by omega) low done
  · by_contra many
    exact write_many ready (by omega) low done

def onePort : Hba where
  ok := true
  nports := 1
  port := fun _ => {
    initialized := true
    clb := fun _ => ⟨0, 0, 0, 0⟩
    ctPhys := 0x200000
    ct := ⟨fun _ => 0, ⟨0, 0, 0, 0⟩⟩
    bufPhys := 0x201000
    ci := 0
    status := 0
    tfd := 0x50
    sector := fun _ _ => 0
    issued := [] }
  mem := fun _ => 0

theorem onePort_ready : Ready onePort 0 := ⟨rfl, rfl, rfl⟩

theorem transfers_iff_block : (ReadDone onePort 0 2048 8 ↔ (8 : Int32).toInt ≤ 8) ∧ (WriteDone onePort 0 2048 8 ↔ (8 : Int32).toInt ≤ 8) :=
  transfers_iff onePort_ready (by decide) (by decide)

/-- Nine sectors are read with one command, whose data goes on behind the buffer. -/
theorem nine_sectors_outside : Ready onePort 0 ∧ 1 ≤ (9 : Int32).toInt ∧ ¬ReadDone onePort 0 2048 9 :=
  ⟨onePort_ready, by decide, read_many onePort_ready (by decide) (by decide)⟩

end SwiftBSD.Proof.Hal
