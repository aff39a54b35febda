import SwiftBSD.Vfs.Call
import SwiftBSD.Proof.Vfs.Slots

namespace SwiftBSD.Proof.Vfs
open Lib SwiftBSD.Fs SwiftBSD.Vfs

variable {σ : Type} {s t : VfsState σ}

/-- Every open slot refers to a handle that is still open. -/
structure Wired (s : VfsState σ) : Prop where
  registered : s.fsList = [.swiftfs]
  slots : ∀ i, i < 64 → (s.fds i).refcount ≠ 0 → 0 < (s.fds i).refcount ∧ ∃ h, On (s.fds i) h ∧ HandleOpen s h

/-- `ops->close` is called on a handle that was held, or was opened by the same call, exactly if no slot holds it
afterwards. -/
def ClosesExact (s t : VfsState σ) : Prop :=
  ∃ opened closed, t.opened = s.opened ++ opened ∧ t.closed = s.closed ++ closed ∧ closed.Nodup ∧
    ∀ h : Handle, h.1 ≠ .serial → (h ∈ closed ↔ (Held s.fds h ∨ h ∈ opened) ∧ ¬Held t.fds h)

structure CallContract (s : VfsState σ) (c : VfsCall) (t : VfsState σ) : Prop where
  wired : Wired t
  exact : ClosesExact s t
  close : ∀ i : Nat, c = .close i → i < 64 → (s.fds i).refcount ≠ 0 →
    (t.fds i).refcount = 0 ∧ ∀ j, j ≠ i → t.fds j = s.fds j

/-- Another open slot refers to the handle of slot `i`. -/
def Shared (fds : Nat → File) (i : Nat) : Prop := ∃ h j, On (fds i) h ∧ j < 64 ∧ j ≠ i ∧ On (fds j) h

def OnSerial (fds : Nat → File) (i : Nat) : Prop := (fds i).ops = some .serial

/-- A slot is closed only while it counts 1 and shares its handle with no other slot. The slot `dup2` replaces must
count 1 exactly if it shares its handle with no other slot. -/
def SafeCall (s : VfsState σ) : VfsCall → Prop
  | .close fd => ∀ i : Nat, fd = i → i < 64 → (s.fds i).refcount ≠ 0 →
      (s.fds i).refcount = 1 ∧ (OnSerial s.fds i ∨ ¬Shared s.fds i)
  | .dup2 oldfd newfd => ∀ i j : Nat, oldfd = i → newfd = j → j ≠ i → i < 64 → j < 64 → (s.fds i).refcount ≠ 0 →
      (s.fds j).refcount ≠ 0 → OnSerial s.fds j ∨ ((s.fds j).refcount = 1 ↔ ¬Shared s.fds j)
  | _ => True

theorem Wired.free (wired : Wired s) {j : Nat} (upper : j < 64) (empty : (s.fds j).refcount ≤ 0) :
    (s.fds j).refcount = 0 := by
  by_contra used
  have := (wired.slots j upper used).1
  omega

theorem closesExact_none (opened : t.opened = s.opened) (closed : t.closed = s.closed)
    (held : ∀ h : Handle, h.1 ≠ .serial → Held s.fds h → Held t.fds h) : ClosesExact s t := by
  refine ⟨[], [], by rw [opened, List.append_nil], by rw [closed, List.append_nil], .nil, fun h serial => ?_⟩
  simp only [List.not_mem_nil, or_false, false_iff, not_and, not_not]
  exact held h serial

theorem closesExact_one {h : Handle} (opened : t.opened = s.opened) (closed : t.closed = s.closed ++ [h])
    (before : Held s.fds h) (gone : h.1 ≠ .serial → ¬Held t.fds h)
    (kept : ∀ h' : Handle, h' ≠ h → Held s.fds h' → Held t.fds h') : ClosesExact s t := by
  refine ⟨[], [h], by rw [opened, List.append_nil], closed, List.nodup_singleton h, fun h' serial => ?_⟩
  simp only [List.mem_singleton, List.not_mem_nil, or_false]
  constructor
  · rintro rfl
    exact ⟨before, gone serial⟩
  · rintro ⟨held, none⟩
    by_contra differs
    exact none (kept h' differs held)

theorem Wired.dupInto (wired : Wired s) {i j : Nat} (differ : j ≠ i) (bound : i < 64) (used : (s.fds i).refcount ≠ 0) :
    Wired { s with fds := dupInto i j s.fds } := by
  obtain ⟨positive, h, on, live⟩ := wired.slots i bound used
  refine ⟨wired.registered, fun k hk usedk => ?_⟩
  dsimp only at usedk ⊢
  rw [dupInto_apply differ] at usedk ⊢
  split
  · exact ⟨by dsimp only; omega, h, ⟨by dsimp only; omega, on.ops, on.priv⟩, (handleOpen_congr rfl rfl).mpr live⟩
  split
  · exact ⟨Int.one_pos, h, ⟨Int.one_ne_zero, on.ops, on.priv⟩, (handleOpen_congr rfl rfl).mpr live⟩
  · next old new =>
      rw [if_neg old, if_neg new] at usedk
      obtain ⟨positive', h', on', live'⟩ := wired.slots k hk usedk
      exact ⟨positive', h', on', (handleOpen_congr rfl rfl).mpr live'⟩

theorem held_dupInto {fds : Nat → File} {h : Handle} {i j k : Nat} (differ : j ≠ i) (positive : 0 < (fds i).refcount)
    (hk : k < 64) (on : On (fds k) h) (kept : k ≠ j) : Held (SwiftBSD.Vfs.dupInto i j fds) h := by
  refine ⟨k, hk, ?_⟩
  rw [dupInto_apply differ, if_neg kept]
  split
  · next same =>
      subst same
      exact ⟨by dsimp only; omega, on.ops, on.priv⟩
  · exact on

theorem on_dupInto {fds : Nat → File} {h : Handle} {i j k : Nat} (differ : j ≠ i) (bound : i < 64)
    (used : (fds i).refcount ≠ 0) (hk : k < 64) (on : On (SwiftBSD.Vfs.dupInto i j fds k) h) :
    ∃ k', k' ≠ j ∧ k' < 64 ∧ On (fds k') h := by
  rw [dupInto_apply differ] at on
  split at on
  · exact ⟨i, Ne.symm differ, bound, used, on.ops, on.priv⟩
  split at on
  · exact ⟨i, Ne.symm differ, bound, used, on.ops, on.priv⟩
  · next new => exact ⟨k, new, hk, on⟩

theorem held_update {fds : Nat → File} {h : Handle} {i k : Nat} {f : File} (other : k ≠ i) (hk : k < 64)
    (on : On (fds k) h) : Held (Function.update fds i f) h :=
  ⟨k, hk, by rw [Function.update_of_ne other]; exact on⟩

/-- A close that counts down leaves the slot open; the last one closes a handle that no other slot needs. -/
inductive SlotClosed (s : VfsState σ) (i : Nat) : VfsState σ → Prop
  | unused (empty : (s.fds i).refcount = 0) : SlotClosed s i s
  | counted (more : 1 < (s.fds i).refcount) : SlotClosed s i
      { s with fds := Function.update s.fds i { s.fds i with refcount := (s.fds i).refcount - 1 } }
  | last {h : Handle} {u : VfsState σ} {fds : Nat → File} (one : (s.fds i).refcount = 1) (on : On (s.fds i) h)
      (closes : Closes { s with fds } h u) :
      SlotClosed s i { u with fds := Function.update s.fds i ⟨none, 0, 0, 0, 0⟩ }

theorem Wired.slotClosed (wired : Wired s) {i : Nat} (bound : i < 64) (run : VfsCloseRun s i t) : SlotClosed s i t := by
  cases run with
  | bad none =>
      refine .unused ?_
      by_contra used
      have : SwiftBSD.Vfs.fdOpen s.fds i = true := fdOpen_iff.mpr ⟨i, rfl, bound, used⟩
      rw [this] at none
      cases none
  | counted here _ more =>
      obtain rfl := Int.ofNat.inj here
      exact .counted more
  | @closed k ops u here _ used last table close =>
      obtain rfl := Int.ofNat.inj here
      obtain ⟨positive, h, on, live⟩ := wired.slots i bound used
      obtain ⟨hops, hpriv⟩ := h
      obtain rfl : hops = ops := Option.some.inj (on.ops.symm.trans table)
      obtain rfl : (s.fds i).priv = hpriv := on.priv
      have closes := close.closes ((handleOpen_congr rfl rfl).mpr live)
      have fds := closes.fds
      dsimp only at fds
      rw [fds, Function.update_idem]
      exact .last (by omega) on closes

theorem Wired.close (wired : Wired s) {i : Nat} (run : SlotClosed s i t)
    (alone : (s.fds i).refcount = 1 → OnSerial s.fds i ∨ ¬Shared s.fds i) : Wired t := by
  cases run with
  | unused => exact wired
  | counted more =>
      refine ⟨wired.registered, fun k hk used => ?_⟩
      dsimp only at used ⊢
      by_cases same : k = i
      · subst same
        obtain ⟨-, h, on, live⟩ := wired.slots k hk (by omega)
        rw [Function.update_self]
        exact ⟨by dsimp only; omega, h, ⟨by dsimp only; omega, on.ops, on.priv⟩, (handleOpen_congr rfl rfl).mpr live⟩
      · rw [Function.update_of_ne same] at used ⊢
        obtain ⟨positive, h, on, live⟩ := wired.slots k hk used
        exact ⟨positive, h, on, (handleOpen_congr rfl rfl).mpr live⟩
  | @last h u fds one on closes =>
      refine ⟨closes.fsList.trans wired.registered, fun k hk used => ?_⟩
      dsimp only at used ⊢
      by_cases same : k = i
      · subst same
        rw [Function.update_self] at used
        exact (used rfl).elim
      · rw [Function.update_of_ne same] at used ⊢
        obtain ⟨positive, h', on', live⟩ := wired.slots k hk used
        refine ⟨positive, h', on', (handleOpen_congr rfl rfl).mpr ?_⟩
        by_cases shared : h' = h
        · subst shared
          rcases alone one with serial | lonely
          · obtain ⟨ops, priv⟩ := h'
            obtain rfl : ops = .serial := Option.some.inj (on.ops.symm.trans serial)
            trivial
          · exact (lonely ⟨h', k, on, hk, same, on'⟩).elim
        · exact closes.others h' shared ((handleOpen_congr rfl rfl).mpr live)

theorem not_held_of_alone {fds fds' : Nat → File} {h : Handle} {i : Nat} (on : On (fds i) h)
    (alone : OnSerial fds i ∨ ¬Shared fds i) (serial : h.1 ≠ .serial)
    (rest : ∀ k, k < 64 → On (fds' k) h → ∃ k', k' ≠ i ∧ k' < 64 ∧ On (fds k') h) : ¬Held fds' h := by
  rintro ⟨k, hk, holds⟩
  obtain ⟨k', other, hk', on'⟩ := rest k hk holds
  rcases alone with onSerial | lonely
  · exact serial (Option.some.inj (on.ops.symm.trans onSerial))
  · exact lonely ⟨h, k', on, hk', other, on'⟩

theorem closesExact_refl (s : VfsState σ) : ClosesExact s s := closesExact_none rfl rfl fun _ _ held => held

theorem Wired.closeContract (wired : Wired s) {fd : Int} (safe : SafeCall s (.close fd)) (run : VfsCloseRun s fd t) :
    CallContract s (.close fd) t := by
  cases isOpen : SwiftBSD.Vfs.fdOpen s.fds fd with
  | false =>
      have closed (i : Nat) (here : fd = i) (bound : i < 64) : (s.fds i).refcount = 0 := by
        by_contra used
        rw [fdOpen_iff.mpr ⟨i, here, bound, used⟩] at isOpen
        cases isOpen
      cases run with
      | bad =>
          refine ⟨wired, closesExact_refl s, fun i here bound used => ?_⟩
          injection here with here
          exact (used (closed i here bound)).elim
      | counted here bound more => have := closed _ here bound; omega
      | closed here bound used => exact (used (closed _ here bound)).elim
  | true =>
      obtain ⟨i, rfl, bound, used⟩ := fdOpen_iff.mp isOpen
      obtain ⟨one, alone⟩ := safe i rfl bound used
      have slot := wired.slotClosed bound run
      have wired' := wired.close slot fun _ => alone
      cases slot with
      | unused empty => exact (used empty).elim
      | counted more => omega
      | last _ on closes =>
          refine ⟨wired', ?_, fun j here _ _ => ?_⟩
          · refine closesExact_one closes.opened closes.closed ⟨i, bound, on⟩ (fun serial => ?_) fun h' differs held => ?_
            · refine not_held_of_alone on alone serial fun k hk onk => ?_
              dsimp only at onk
              by_cases same : k = i
              · subst same
                rw [Function.update_self] at onk
                exact (onk.used rfl).elim
              · rw [Function.update_of_ne same] at onk
                exact ⟨k, same, hk, onk⟩
            · obtain ⟨k, hk, onk⟩ := held
              refine held_update (fun same => ?_) hk onk
              subst same
              exact differs (onk.unique on)
          · injection here with here
            obtain rfl := Int.ofNat.inj here
            dsimp only
            exact ⟨by rw [Function.update_self], fun j other => Function.update_of_ne other _ _⟩

theorem Wired.dupContract (wired : Wired s) {c : VfsCall} {i j : Nat} (isDup : ∀ fd, c ≠ .close fd) (differ : j ≠ i)
    (bound : i < 64) (used : (s.fds i).refcount ≠ 0) (empty : (s.fds j).refcount = 0) :
    CallContract s c { s with fds := SwiftBSD.Vfs.dupInto i j s.fds } := by
  refine ⟨wired.dupInto differ bound used, ?_, fun _ here => (isDup _ here).elim⟩
  refine closesExact_none rfl rfl fun h _ held => ?_
  obtain ⟨k, hk, on⟩ := held
  refine held_dupInto differ (wired.slots i bound used).1 hk on fun same => ?_
  subst same
  exact on.used empty

theorem Wired.dup2Contract (wired : Wired s) {oldfd newfd : Int} (safe : SafeCall s (.dup2 oldfd newfd))
    (run : VfsDup2Run s oldfd newfd t) : CallContract s (.dup2 oldfd newfd) t := by
  cases run with
  | failed => exact ⟨wired, closesExact_refl s, fun _ here => nomatch here⟩
  | made old new differ bound upper used empty =>
      exact wired.dupContract (fun _ => nofun) differ bound used (wired.free upper empty)
  | @closed i j u old new differ bound upper used full close =>
      have slot := wired.slotClosed upper close
      have count := safe i j old new differ bound upper used (by omega)
      have wired' := wired.close slot fun one => count.imp_right fun iff => iff.mp one
      cases slot with
      | unused empty => omega
      | counted more =>
          refine ⟨wired'.dupInto differ bound (by dsimp only; rwa [Function.update_of_ne (Ne.symm differ)]), ?_,
            fun _ here => nomatch here⟩
          refine closesExact_none rfl rfl fun h serial held => ?_
          obtain ⟨k, hk, on⟩ := held
          have other : ∃ k', k' ≠ j ∧ k' < 64 ∧ On (s.fds k') h := by
            by_cases same : k = j
            · subst same
              rcases count with onSerial | iff
              · exact (serial (Option.some.inj (on.ops.symm.trans onSerial))).elim
              · have shared : Shared s.fds k := by
                  by_contra lonely
                  have := iff.mpr lonely
                  omega
                obtain ⟨h', k', on', hk', other, on''⟩ := shared
                obtain rfl := on.unique on'
                exact ⟨k', other, hk', on''⟩
            · exact ⟨k, same, hk, on⟩
          obtain ⟨k', other, hk', on'⟩ := other
          dsimp only
          rw [dupInto_update differ]
          exact held_dupInto differ (wired.slots i bound used).1 hk' on' other
      | @last h u fds one on closes =>
          have alone := count.imp_right fun iff => iff.mp one
          refine ⟨wired'.dupInto differ bound (by dsimp only; rwa [Function.update_of_ne (Ne.symm differ)]), ?_,
            fun _ here => nomatch here⟩
          refine closesExact_one closes.opened closes.closed ⟨j, upper, on⟩ (fun serial => ?_) fun h' differs held => ?_
          · dsimp only
            rw [dupInto_update differ]
            exact not_held_of_alone on alone serial fun k hk onk => on_dupInto differ bound used hk onk
          · obtain ⟨k, hk, onk⟩ := held
            have other : k ≠ j := by
              rintro rfl
              exact differs (onk.unique on)
            dsimp only
            rw [dupInto_update differ]
            exact held_dupInto differ (wired.slots i bound used).1 hk onk other

theorem Wired.openContract (wired : Wired s) {path : CString} {flags : UInt32} (run : VfsOpenRun s t) :
    CallContract s (.open_ path flags) t := by
  have fresh {fd : Nat} (free : (s.fs.fds fd).inode = 0) {i : Nat} {h : Handle} (bound : i < 64) (on : On (s.fds i) h) :
      h ≠ (.swiftfs, fd) := by
    rintro rfl
    obtain ⟨-, h', on', live⟩ := wired.slots i bound on.used
    obtain rfl := on.unique on'
    exact live.2 free
  have taken {fs : FsState σ} {fd : Nat} {f : Fd} (table : fs.fds = Function.update s.fs.fds fd f) {h : Handle}
      (differs : h ≠ (.swiftfs, fd)) (live : HandleOpen s h) : HandleOpen { s with fs } h := by
    obtain ⟨ops, fd'⟩ := h
    cases ops with
    | swiftfs =>
        have apart : fd' ≠ fd := fun same => differs (by rw [same])
        refine ⟨live.1, ?_⟩
        dsimp only
        rw [table, Function.update_of_ne apart]
        exact live.2
    | serial | pipeRead | pipeWrite => exact live
  cases run with
  | @failed fs same =>
      refine ⟨⟨wired.registered, fun i bound used => ?_⟩, closesExact_none rfl rfl fun _ _ held => held,
        fun _ here => nomatch here⟩
      obtain ⟨positive, h, on, live⟩ := wired.slots i bound used
      exact ⟨positive, h, on, (handleOpen_congr (t := { s with fs }) same rfl).mpr live⟩
  | @full fs fd f u bound free used table none close =>
      have closes := close.closes ⟨bound, by dsimp only; rw [table, Function.update_self]; exact used⟩
      have fds : t.fds = s.fds := closes.fds
      have unheld : ¬Held s.fds (.swiftfs, fd) := fun ⟨i, hi, on⟩ => fresh free hi on rfl
      refine ⟨⟨closes.fsList.trans wired.registered, fun i hi usedi => ?_⟩,
        ⟨[(.swiftfs, fd)], [(.swiftfs, fd)], closes.opened, closes.closed, List.nodup_singleton _, fun h serial => ?_⟩,
        fun _ here => nomatch here⟩
      · rw [fds] at usedi ⊢
        obtain ⟨positive, h, on, live⟩ := wired.slots i hi usedi
        have differs := fresh free hi on
        refine ⟨positive, h, on, closes.others h differs ?_⟩
        exact (handleOpen_congr rfl rfl).mpr (taken table differs live)
      · rw [fds]
        simp only [List.mem_singleton]
        constructor
        · rintro rfl
          exact ⟨.inr rfl, unheld⟩
        · rintro ⟨held | same, gone⟩
          · exact (gone held).elim
          · exact same
  | @took fs fd f i flags bound free used table lower upper empty =>
      have held : Held (Function.update s.fds i ⟨some .swiftfs, fd, 0, flags, 1⟩) (.swiftfs, fd) :=
        ⟨i, upper, by rw [Function.update_self]; exact ⟨Int.one_ne_zero, rfl, rfl⟩⟩
      refine ⟨⟨wired.registered, fun k hk usedk => ?_⟩,
        ⟨[(.swiftfs, fd)], [], rfl, (List.append_nil _).symm, .nil, fun h serial => ?_⟩, fun _ here => nomatch here⟩
      · dsimp only at usedk ⊢
        by_cases same : k = i
        · subst same
          rw [Function.update_self]
          refine ⟨Int.one_pos, (.swiftfs, fd), ⟨Int.one_ne_zero, rfl, rfl⟩, bound, ?_⟩
          dsimp only
          rw [table, Function.update_self]
          exact used
        · rw [Function.update_of_ne same] at usedk ⊢
          obtain ⟨positive, h, on, live⟩ := wired.slots k hk usedk
          exact ⟨positive, h, on, (handleOpen_congr rfl rfl).mpr (taken table (fresh free hk on) live)⟩
      · simp only [List.not_mem_nil, List.mem_singleton, false_iff, not_and, not_not]
        rintro (⟨k, hk, on⟩ | rfl)
        · exact held_update (fun same => on.used (by rw [same]; exact empty)) hk on
        · exact held

variable [BlockStore σ]

theorem Wired.contract (wired : Wired s) {c : VfsCall} {r : Int} (safe : SafeCall s c) (run : c.exec.run s = some (r, t)) :
    CallContract s c t := by
  cases c with
  | open_ path flags => exact wired.openContract (vfsOpen_run wired.registered run)
  | dup oldfd =>
      cases vfsDup_run run with
      | failed => exact ⟨wired, closesExact_refl s, fun _ here => nomatch here⟩
      | made here bound used lower upper empty =>
          refine wired.dupContract (fun _ => nofun) ?_ bound used empty
          rintro rfl
          exact used empty
  | dup2 oldfd newfd => exact wired.dup2Contract safe (vfsDup2_run run)
  | close fd => exact wired.closeContract safe (vfsClose_run run)

omit [BlockStore σ] in
theorem Wired.not_gone (wired : Wired t) {h : Handle} {k : Nat} (hk : k < 64) (on : On (t.fds k) h) (gone : ¬HandleOpen t h) :
    False := by
  obtain ⟨-, h', on', live⟩ := wired.slots k hk on.used
  obtain rfl := on.unique on'
  exact gone live

omit [BlockStore σ] in
theorem CallContract.safe_close {fd : Int} (contract : CallContract s (.close fd) t) (wired : Wired s)
    (run : VfsCloseRun s fd t) : SafeCall s (.close fd) := by
  intro i here bound used
  subst here
  obtain ⟨empty, same⟩ := contract.close i rfl bound used
  cases wired.slotClosed bound run with
  | unused zero => exact (used zero).elim
  | counted more =>
      dsimp only at empty
      rw [Function.update_self] at empty
      dsimp only at empty
      omega
  | last one on closes =>
      refine ⟨one, or_iff_not_imp_left.mpr fun serial shared => ?_⟩
      obtain ⟨h', k, on', hk, other, onk⟩ := shared
      obtain rfl := on.unique on'
      have gone := closes.gone fun isSerial => serial (by rw [OnSerial, on.ops, isSerial])
      refine contract.wired.not_gone hk (by rw [same k other]; exact onk) fun live => gone ?_
      exact (handleOpen_congr rfl rfl).mp live

omit [BlockStore σ] in
theorem CallContract.safe_dup2 {oldfd newfd : Int} (contract : CallContract s (.dup2 oldfd newfd) t) (wired : Wired s)
    (run : VfsDup2Run s oldfd newfd t) : SafeCall s (.dup2 oldfd newfd) := by
  rintro i j old new differ bound upper used usedj
  refine or_iff_not_imp_left.mpr fun serial => ?_
  cases run with
  | failed refused => exact (differ (refused i j old new bound upper used)).elim
  | made old' new' _ _ _ _ empty =>
      obtain rfl := Int.ofNat.inj (new.symm.trans new')
      exact (usedj (wired.free upper empty)).elim
  | closed old' new' _ _ _ _ full close =>
      obtain rfl := Int.ofNat.inj (old.symm.trans old')
      obtain rfl := Int.ofNat.inj (new.symm.trans new')
      cases wired.slotClosed upper close with
      | unused zero => exact (usedj zero).elim
      | counted more =>
          -- nothing is closed, so another slot must hold the handle
          obtain ⟨-, h, on, -⟩ := wired.slots j upper usedj
          obtain ⟨opened, closed, hopened, hclosed, -, exact⟩ := contract.exact
          have isSerial : h.1 ≠ .serial := fun isSerial => serial (by rw [OnSerial, on.ops, isSerial])
          obtain rfl : closed = [] := List.append_cancel_left (hclosed.symm.trans (List.append_nil _).symm)
          have held := not_not.mp fun gone => List.not_mem_nil ((exact h isSerial).mpr ⟨.inl ⟨j, upper, on⟩, gone⟩)
          dsimp only at held
          rw [dupInto_update differ] at held
          obtain ⟨k, hk, onk⟩ := held
          obtain ⟨k', other, hk', on'⟩ := on_dupInto differ bound used hk onk
          exact iff_of_false (by omega) fun lonely => lonely ⟨h, k', on, hk', other, on'⟩
      | last one on closes =>
          refine iff_of_true one fun shared => ?_
          obtain ⟨h', k, on', hk, other, onk⟩ := shared
          obtain rfl := on.unique on'
          have gone := closes.gone fun isSerial => serial (by rw [OnSerial, on.ops, isSerial])
          obtain ⟨k', hk', onk'⟩ := held_dupInto differ (wired.slots i bound used).1 hk onk other
          refine contract.wired.not_gone hk' ?_ fun live => gone ((handleOpen_congr rfl rfl).mp live)
          dsimp only
          rw [dupInto_update differ]
          exact onk'

theorem Wired.contract_iff (wired : Wired s) {c : VfsCall} {r : Int} (run : c.exec.run s = some (r, t)) :
    CallContract s c t ↔ SafeCall s c := by
  refine ⟨fun contract => ?_, fun safe => wired.contract safe run⟩
  cases c with
  | open_ | dup => trivial
  | dup2 oldfd newfd => exact contract.safe_dup2 wired (vfsDup2_run run)
  | close fd => exact contract.safe_close wired (vfsClose_run run)

theorem reach_wired (wired : Wired s) (reach : VfsReach SafeCall s t) : Wired t := by
  induction reach with
  | start => exact wired
  | call _ safe run ih => exact (ih.contract safe run).wired

/-- In a run whose calls are all safe, every state has its slots on open handles, and the next call meets its contract
exactly if it is safe too. -/
theorem duplicates_own_handle (wired : Wired s) (reach : VfsReach SafeCall s t) :
    Wired t ∧ ∀ c r u, c.exec.run t = some (r, u) → (CallContract t c u ↔ SafeCall t c) := by
  have wired' := reach_wired wired reach
  exact ⟨wired', fun c r u run => wired'.contract_iff run⟩

/-- The table of a process that has opened the root directory, in slot 2. -/
def oneFile : VfsState Disk where
  fs := { FsState.boot ⟨fun _ => .zero⟩ fun _ => true with
    fds := Function.update (fun _ => .zero) 2 ⟨1, 0, 0, false⟩ }
  fsList := [.swiftfs]
  pipes := fun _ => none
  serialIn := fun _ => 0
  serialOut := []
  fds := Function.update (vfsInit fun _ => ⟨none, 0, 0, 0, 0⟩) 2 ⟨some .swiftfs, 2, 0, 0, 1⟩
  opened := [(.swiftfs, 2)]
  closed := []

theorem wired_oneFile : Wired oneFile := by
  refine ⟨rfl, fun i bound used => ?_⟩
  by_cases file : i = 2
  · subst file
    exact ⟨by decide, (.swiftfs, 2), ⟨by decide, rfl, rfl⟩, by decide, by decide⟩
  · by_cases standard : i < 2
    · have slot : oneFile.fds i = ⟨some .serial, 0, 0, 0, 1⟩ := by
        simp [oneFile, vfsInit, file, standard]
      rw [slot]
      exact ⟨Int.one_pos, (.serial, 0), ⟨Int.one_ne_zero, rfl, rfl⟩, trivial⟩
    · have empty : (oneFile.fds i).refcount = 0 := by
        simp [oneFile, vfsInit, file, standard]
      exact (used empty).elim

theorem duplicates_own_handle_dup : ∃ t, (VfsCall.dup 2).exec.run oneFile = some (3, t) ∧ Wired t := by
  refine ⟨_, rfl, ?_⟩
  exact (duplicates_own_handle wired_oneFile (.call .start (c := .dup 2) trivial rfl)).1

/-- Closing the duplicate closes the file under the slot it was made from. -/
theorem closing_duplicate_closes_file : ∃ t u, Wired oneFile ∧ (VfsCall.dup 2).exec.run oneFile = some (3, t) ∧
    (VfsCall.close 3).exec.run t = some (0, u) ∧ On (u.fds 2) (.swiftfs, 2) ∧ ¬HandleOpen u (.swiftfs, 2) ∧
    ¬CallContract t (.close 3) u := by
  have on : On (oneFile.fds 2) (.swiftfs, 2) := ⟨by decide, rfl, rfl⟩
  refine ⟨_, _, wired_oneFile, rfl, rfl, ⟨by decide, rfl, rfl⟩, ?_, ?_⟩
  · rintro ⟨-, used⟩
    exact used rfl
  · rintro ⟨wired, -, -⟩
    obtain ⟨-, h, on, live⟩ := wired.slots 2 (by decide) (by decide)
    obtain rfl : h = (.swiftfs, 2) := on.unique ⟨by decide, rfl, rfl⟩
    exact live.2 rfl

end SwiftBSD.Proof.Vfs
