import SwiftBSD.Lib.ByteFiles
import SwiftBSD.Proof.Fs.Growing

namespace SwiftBSD.Proof.Fs
open Lib SwiftBSD.Fs

variable {R : Nat → Prop} {V V' V'' W : Vol} {D D' : Nat → List (List Rec)} {i fd p : Nat} {path : CString} {flags : UInt32}
  {s t u : FsState Disk} {c : Call} {r : Result}

abbrev Event := FileEvent Nat Nat UInt8

def isFile (x : Inode) : Bool := x.mode != 0 && !x.isDir

def cursorOf (V : Vol) (f : Fd) : Option (Nat × Nat) := if f.inode ≠ 0 ∧ isFile (V.inode f.inode) then some (f.inode, f.pos) else none

def files (V : Vol) : ByteFiles Nat Nat UInt8 where
  bytes := fun i => if i < V.inodes ∧ isFile (V.inode i) then some (contents V.data (V.inode i)) else none
  cursor := fun fd => cursorOf V (V.fds fd)

theorem isFile_iff {x : Inode} : isFile x = true ↔ x.mode ≠ 0 ∧ x.isDir = false := by simp [isFile]

theorem isFile_mode {x y : Inode} (same : x.mode = y.mode) : isFile x = isFile y := by
  unfold isFile Inode.isDir
  rw [same]

theorem files_bytes (hi : i < V.inodes) (file : isFile (V.inode i) = true) : (files V).bytes i = some (contents V.data (V.inode i)) :=
  if_pos ⟨hi, file⟩

theorem files_cursor (used : (V.fds fd).inode ≠ 0) (file : isFile (V.inode (V.fds fd).inode) = true) :
    (files V).cursor fd = some ((V.fds fd).inode, (V.fds fd).pos) := if_pos ⟨used, file⟩

theorem files_cursor_none (other : (V.fds fd).inode = 0 ∨ isFile (V.inode (V.fds fd).inode) = false) : (files V).cursor fd = none := by
  refine if_neg ?_
  rintro ⟨used, file⟩
  rcases other with zero | other
  · exact used zero
  · rw [other] at file
    cases file

theorem files_cursor_some (here : (files V).cursor fd = some (i, p)) :
    (V.fds fd).inode = i ∧ (V.fds fd).pos = p ∧ i ≠ 0 ∧ isFile (V.inode i) = true := by
  unfold files cursorOf at here
  dsimp only at here
  split at here
  · next used =>
      obtain ⟨rfl, rfl⟩ := Prod.mk.inj (Option.some.inj here)
      exact ⟨rfl, rfl, used⟩
  · cases here

theorem files_ext {F G : ByteFiles Nat Nat UInt8} (bytes : ∀ i, F.bytes i = G.bytes i) (cursor : ∀ k, F.cursor k = G.cursor k) : F = G := by
  obtain ⟨_, _⟩ := F
  obtain ⟨_, _⟩ := G
  rw [ByteFiles.mk.injEq]
  exact ⟨funext bytes, funext cursor⟩

/-- Files have no holes, descriptors are on inodes in use, and not behind the end of a file. -/
structure Held (V : Vol) : Prop where
  solid : ∀ i < V.inodes, isFile (V.inode i) = true → Solid V.data (V.inode i) (V.inode i).size.toNat
  live : ∀ fd, (V.fds fd).inode ≠ 0 → (V.inode (V.fds fd).inode).mode ≠ 0
  good : (files V).Good

/-- The events lead from the files of one volume to the files of the other. -/
structure Leads (V : Vol) (es : List Event) (V' : Vol) : Prop where
  run : ByteFiles.Run (files V) es (files V')
  held : Held V'

theorem Leads.trans {es fs : List Event} (first : Leads V es V') (second : Leads V' fs V'') : Leads V (es ++ fs) V'' :=
  ⟨first.run.append second.run, second.held⟩

theorem Held.refl (held : Held V) : Leads V [] V := ⟨.nil, held⟩

theorem Held.moved {es : List Event} (held : Held V) (run : ByteFiles.Run (files V) es (files V'))
    (solid : ∀ i < V'.inodes, isFile (V'.inode i) = true → Solid V'.data (V'.inode i) (V'.inode i).size.toNat)
    (live : ∀ fd, (V'.fds fd).inode ≠ 0 → (V'.inode (V'.fds fd).inode).mode ≠ 0) : Leads V es V' :=
  ⟨run, solid, live, run.good held.good⟩

theorem Held.same (held : Held V) (same : files V' = files V)
    (solid : ∀ i < V'.inodes, isFile (V'.inode i) = true → Solid V'.data (V'.inode i) (V'.inode i).size.toNat)
    (live : ∀ fd, (V'.fds fd).inode ≠ 0 → (V'.inode (V'.fds fd).inode).mode ≠ 0) : Leads V [] V' :=
  held.moved (same ▸ .nil) solid live

section Framed
variable {T : Nat → Prop}

theorem Frame.contents_eq (frame : Frame T V V') {j : Nat} (hj : j < V.inodes) (out : ¬T j) :
    contents V'.data (V'.inode j) = contents V.data (V.inode j) := by
  unfold contents
  rw [frame.byteAt_eq hj out, frame.inode j out]

theorem Frame.bytes_eq (frame : Frame T V V') {j : Nat} (out : ¬T j) : (files V').bytes j = (files V).bytes j := by
  unfold files
  dsimp only
  by_cases hj : j < V.inodes
  · rw [frame.inodes, frame.contents_eq hj out, frame.inode j out]
  · rw [if_neg fun h => hj (frame.inodes ▸ h.1), if_neg fun h => hj h.1]

theorem Frame.solid (frame : Frame T V V') (held : Held V) {j : Nat} (hj : j < V'.inodes) (out : ¬T j) (file : isFile (V'.inode j) = true) :
    Solid V'.data (V'.inode j) (V'.inode j).size.toNat := by
  have bound : j < V.inodes := frame.inodes ▸ hj
  have solid := held.solid j bound (by rwa [← frame.inode j out])
  intro k hk nothing
  rw [frame.inode j out] at hk
  have old := solid k hk
  have slots := congrFun (frame.slot_eq bound out) (k / 4096)
  rw [fileBlock_ne_slot old, slot_of_lt (lt_of_fileBlock_ne old), nothing] at slots
  exact old slots.symm

theorem Held.frame (held : Held V) (frame : Frame T V V') (fds : V'.fds = V.fds)
    (plain : ∀ j, T j → isFile (V.inode j) = false ∧ isFile (V'.inode j) = false)
    (live : ∀ fd, (V.fds fd).inode ≠ 0 → T (V.fds fd).inode → (V'.inode (V.fds fd).inode).mode ≠ 0) : Leads V [] V' := by
  classical
  have isFile_eq (j : Nat) : isFile (V'.inode j) = isFile (V.inode j) := by
    by_cases touched : T j
    · rw [(plain j touched).1, (plain j touched).2]
    · rw [frame.inode j touched]
  refine held.same (files_ext (fun j => ?_) fun fd => ?_) (fun j hj file => ?_) fun fd used => ?_
  · by_cases touched : T j
    · unfold files
      dsimp only
      rw [if_neg fun h => by simp [(plain j touched).2] at h, if_neg fun h => by simp [(plain j touched).1] at h]
    · exact frame.bytes_eq touched
  · unfold files cursorOf
    dsimp only
    rw [fds, isFile_eq]
  · refine frame.solid held hj (fun touched => ?_) file
    rw [(plain j touched).2] at file
    cases file
  · rw [fds] at used ⊢
    by_cases touched : T (V.fds fd).inode
    · exact live fd used touched
    · rw [frame.inode _ touched]
      exact held.live fd used

theorem files_one (frame : Frame (· = i) V V') (fds : V'.fds = V.fds) (idle : ∀ fd, (V.fds fd).inode ≠ 0 → (V.fds fd).inode ≠ i) :
    files V' = (files V).setBytes i ((files V').bytes i) := by
  refine files_ext (fun j => ?_) fun fd => ?_
  · by_cases same : j = i
    · rw [same, ByteFiles.setBytes_bytes, Function.update_self]
    · rw [ByteFiles.setBytes_bytes, Function.update_of_ne same]
      exact frame.bytes_eq same
  · by_cases used : (V.fds fd).inode = 0
    · rw [files_cursor_none (.inl (by rw [fds]; exact used))]
      exact (files_cursor_none (.inl used)).symm
    · unfold files ByteFiles.setBytes cursorOf
      dsimp only
      rw [fds, frame.inode _ (idle fd used)]

theorem Held.idle (held : Held V) (free : (V.inode i).mode = 0) : ∀ fd, (V.fds fd).inode ≠ 0 → (V.fds fd).inode ≠ i := by
  rintro fd used rfl
  exact held.live fd used free

theorem Held.one {es : List Event} (held : Held V) (frame : Frame (· = i) V V') (fds : V'.fds = V.fds)
    (idle : ∀ fd, (V.fds fd).inode ≠ 0 → (V.fds fd).inode ≠ i) (run : ByteFiles.Run (files V) es ((files V).setBytes i ((files V').bytes i)))
    (empty : (V'.inode i).size = 0) : Leads V es V' := by
  refine held.moved ?_ (fun j hj file => ?_) fun fd used => ?_
  · rw [files_one frame fds idle]
    exact run
  · by_cases same : j = i
    · subst same
      intro k hk
      rw [empty] at hk
      cases hk
    · exact frame.solid held hj same file
  · rw [fds] at used ⊢
    rw [frame.inode _ (idle fd used)]
    exact held.live fd used

end Framed

theorem contents_empty {data : Nat → Block} {x : Inode} (empty : x.size = 0) : contents data x = [] := by
  unfold contents
  rw [empty]
  rfl

theorem files_idle (idle : ∀ fd, (V.fds fd).inode ≠ 0 → (V.fds fd).inode ≠ i) : (files V).Idle i := by
  intro fd p here
  obtain ⟨same, -, nonzero, -⟩ := files_cursor_some here
  exact idle fd (same ▸ nonzero) same

theorem files_setFd (V : Vol) (fd : Nat) (f : Fd) : files (V.setFd fd f) = (files V).setCursor fd (cursorOf V f) := by
  refine files_ext (fun _ => rfl) fun k => ?_
  have moved : (files (V.setFd fd f)).cursor k = cursorOf V (Function.update V.fds fd f k) := rfl
  rw [moved, ByteFiles.setCursor_cursor]
  by_cases same : k = fd
  · rw [same, Function.update_self, Function.update_self]
  · rw [Function.update_of_ne same, Function.update_of_ne same]
    rfl

theorem Held.setFd {es : List Event} {f : Fd} (held : Held V) (run : ByteFiles.Run (files V) es (files (V.setFd fd f)))
    (live : f.inode ≠ 0 → (V.inode f.inode).mode ≠ 0) : Leads V es (V.setFd fd f) := by
  refine held.moved run held.solid fun k used => ?_
  simp only [Vol.setFd, Function.update_apply] at used ⊢
  split at used
  · next same =>
      rw [if_pos same]
      exact live used
  · next other =>
      rw [if_neg other]
      exact held.live k used

theorem Held.start (held : Held V) (hi : i < V.inodes) (nonzero : i ≠ 0) (file : isFile (V.inode i) = true) (free : (V.fds fd).inode = 0) :
    Leads V [.start fd i] (V.setFd fd ⟨i, 0, flags, false⟩) := by
  refine held.setFd ?_ fun _ => (isFile_iff.mp file).1
  rw [files_setFd, cursorOf, if_pos ⟨nonzero, file⟩]
  exact (ByteFiles.Step.start (files_bytes hi file) (files_cursor_none (.inl free))).run

theorem Held.startOther (held : Held V) (used : (V.inode i).mode ≠ 0) (other : isFile (V.inode i) = false) (free : (V.fds fd).inode = 0) :
    Leads V [] (V.setFd fd ⟨i, 0, flags, false⟩) := by
  refine held.setFd ?_ fun _ => used
  rw [files_setFd, cursorOf, if_neg fun h => by simp [other] at h]
  have same : (files V).setCursor fd none = files V := by
    rw [ByteFiles.setCursor, ← files_cursor_none (.inl free), Function.update_eq_self]
  rw [same]
  exact .nil

theorem Held.stop (held : Held V) (fd : Nat) : Leads V [.stop fd] (V.setFd fd .zero) := by
  refine held.setFd ?_ fun nonzero => absurd rfl nonzero
  rw [files_setFd, cursorOf, if_neg fun h => h.1 rfl]
  exact ByteFiles.Step.stop.run

theorem isFile_zero : isFile Inode.zero = false := by decide

theorem not_file_of_dir {x : Inode} (dir : x.isDir = true) : isFile x = false := by
  unfold isFile
  rw [dir, Bool.not_true, Bool.and_false]

theorem not_file_of_free {x : Inode} (free : x.mode = 0) : isFile x = false := by
  unfold isFile
  rw [free]
  rfl

theorem Held.untouched (held : Held V) (frame : Frame (fun _ => False) V V') (fds : V'.fds = V.fds) : Leads V [] V' :=
  held.frame frame fds (fun _ => False.elim) fun _ _ => False.elim

def cutEvents (flags : UInt32) (i : Nat) : List Event := if flags &&& oTrunc ≠ 0 then [.cut i] else []

def startEvents (value : Int) (i : Nat) : List Event := if 0 ≤ value then [.start value.toNat i] else []

theorem TruncPost.mode (post : TruncPost R V D i flags V' D') : (V'.inode i).mode = (V.inode i).mode := by
  cases post with
  | kept => rfl
  | cut =>
      rw [inode_setInode_self]
      rfl

theorem TruncPost.frame (post : TruncPost R V D i flags V' D') : Frame (· = i) V V' := by
  cases post with
  | kept => exact .refl _ V
  | @cut W h freed own => exact (freed.framed.mono fun _ => False.elim).trans (frame_setInode W i _)

theorem TruncPost.moved (post : TruncPost R V D i flags V' D') (held : Held V) (hi : i < V.inodes) (file : isFile (V.inode i) = true)
    (idle : flags &&& oTrunc ≠ 0 → ∀ fd, (V.fds fd).inode ≠ 0 → (V.fds fd).inode ≠ i) : Leads V (cutEvents flags i) V' := by
  have frame := post.frame
  have fds := post.fds
  have mode := post.mode
  cases post with
  | kept h =>
      rw [cutEvents, if_neg (not_not.mpr h)]
      exact held.refl
  | @cut W h freed own =>
      rw [cutEvents, if_pos h]
      have empty : ((W.setInode i (truncated (V.inode i))).inode i).size = 0 := by
        rw [inode_setInode_self]
        rfl
      refine held.one frame fds (idle h) ?_ empty
      rw [files_bytes (by rwa [frame.inodes]) (by rwa [isFile_mode mode]), contents_empty empty]
      exact (ByteFiles.Step.cut (files_bytes hi file) (files_idle (idle h))).run

theorem TruncPost.movedOther (post : TruncPost R V D i flags V' D') (held : Held V) (used : (V.inode i).mode ≠ 0)
    (other : isFile (V.inode i) = false) : Leads V [] V' := by
  refine held.frame post.frame post.fds ?_ ?_
  · rintro j rfl
    exact ⟨other, (isFile_mode post.mode).trans other⟩
  · rintro fd - here
    rw [here, post.mode]
    exact used

inductive Opens (file : Bool) (flags : UInt32) (i : Nat) (value : Int) : List Event → Prop
  | failed (failed : value = -1) : Opens file flags i value []
  | other (other : file = false) : Opens file flags i value []
  | opened (plain : file = true) : Opens file flags i value (cutEvents flags i ++ startEvents value i)

theorem OpenInoPost.moved {value : Int} (post : OpenInoPost R V D i flags value V' D') (held : Held V) (hi : i < V.inodes) (nonzero : i ≠ 0)
    (used : (V.inode i).mode ≠ 0) (idle : flags &&& oTrunc ≠ 0 → ∀ fd, (V.fds fd).inode ≠ 0 → (V.fds fd).inode ≠ i) :
    ∃ es, Opens (isFile (V.inode i)) flags i value es ∧ Leads V es V' := by
  cases kind : isFile (V.inode i) with
  | true =>
      cases post with
      | denied => exact ⟨[], .failed rfl, held.refl⟩
      | noFd _ trunc => exact ⟨cutEvents flags i ++ [], .opened rfl, (trunc.moved held hi kind idle).trans (trunc.moved held hi kind idle).held.refl⟩
      | @opened _ W _ trunc fd _ _ free =>
          have cut := trunc.moved held hi kind idle
          refine ⟨cutEvents flags i ++ [.start fd i], .opened rfl, cut.trans (cut.held.start ?_ nonzero ?_ ?_)⟩
          · rw [trunc.inodes]
            exact hi
          · rw [isFile_mode trunc.mode]
            exact kind
          · rw [trunc.fds]
            exact free
  | false =>
      cases post with
      | denied => exact ⟨[], .failed rfl, held.refl⟩
      | noFd _ trunc => exact ⟨[], .other rfl, trunc.movedOther held used kind⟩
      | @opened _ W _ trunc fd _ _ free =>
          have cut := trunc.movedOther held used kind
          refine ⟨[], .other rfl, cut.trans (cut.held.startOther ?_ ?_ ?_)⟩
          · rw [trunc.mode]
            exact used
          · rw [isFile_mode trunc.mode]
            exact kind
          · rw [trunc.fds]
            exact free

theorem AddPost.fds {q child : Nat} {name : List UInt8} {bs bs' : List (List Rec)} {value : Int} (post : AddPost R V q bs name child value V' bs') :
    V'.fds = V.fds := by
  cases post with
  | fit _ edited => exact edited.fds
  | full => rfl
  | leak _ _ _ _ fds => exact fds
  | grow _ _ edited => exact edited.fds
  | lost _ _ edited => exact edited.fds

theorem CreatePost.fds {found : Option Nat} {path : List UInt8} (post : CreatePost R V D path found V' D') : V'.fds = V.fds := by
  cases post with
  | noParent | noInode => rfl
  | noEntry _ _ _ add => exact add.fds
  | created _ _ _ add => exact add.fds

theorem dir_ne_free {q : Nat} (dir : (V.inode q).isDir = true) (free : (V.inode i).mode = 0) : q ≠ i := by
  rintro rfl
  exact mode_ne_zero dir free

theorem Held.undone {mode : UInt16} {q : Nat} {W' : Vol} (held : Held V) (free : (V.inode i).mode = 0) (dir : (V.inode q).isDir = true)
    (frame : Frame (fun j => j = i ∨ j = q) (V.allocIno mode i) W') (fds : W'.fds = V.fds) (modes : (W'.inode q).mode = (V.inode q).mode) :
    Leads V [] (W'.freeIno i) := by
  have differ : q ≠ i := dir_ne_free dir free
  have whole : Frame (fun j => j = i ∨ j = q) V (W'.freeIno i) :=
    ((frame_allocIno V mode i).mono fun _ => .inl).trans (frame.trans ((frame_freeIno W' i).mono fun _ => .inl))
  have parent : (W'.freeIno i).inode q = W'.inode q := (frame_freeIno W' i).inode q differ
  refine held.frame whole fds ?_ ?_
  · rintro j (rfl | rfl)
    · exact ⟨not_file_of_free free, by rw [show (W'.freeIno j).inode j = .zero by simp [Vol.freeIno, Vol.giveIno, Vol.setInode]]; exact isFile_zero⟩
    · rw [parent, isFile_mode modes]
      exact ⟨not_file_of_dir dir, not_file_of_dir dir⟩
  · rintro fd used (here | here)
    · exact absurd here (held.idle free fd used)
    · rw [here, parent, modes]
      exact mode_ne_zero dir

theorem CreatePost.movedNone {found : Option Nat} {path : List UInt8} (post : CreatePost R V D path found V' D') (none : found = none)
    (held : Held V) (dirs : ∀ q, parentOf V D path = some q → (V.inode q).isDir = true) : Leads V [] V' := by
  cases post with
  | noParent => exact held.refl
  | noInode => exact held.untouched ⟨rfl, rfl, fun _ _ => rfl, fun _ _ _ _ _ => rfl⟩ rfl
  | @noEntry q i W _ parent free first add =>
      have dir := dirs q parent
      have differ : q ≠ i := dir_ne_free dir free.2.2.2
      refine held.undone free.2.2.2 dir (add.frame.mono fun _ => .inr) add.fds ?_
      rw [add.mode, (frame_allocIno V _ i).inode q differ]
  | created => cases none

theorem CreatePost.moved {path : List UInt8} (post : CreatePost R V D path (some i) V' D') (held : Held V)
    (dirs : ∀ q, parentOf V D path = some q → (V.inode q).isDir = true) : Leads V [.make i] V' := by
  cases post with
  | @created q _ _ bs parent free first add =>
      have dir := dirs q parent
      have differ : q ≠ i := dir_ne_free dir free.2.2.2
      have new : (V.allocIno (sIfreg ||| 0o644) i).inode i = { Inode.zero with mode := sIfreg ||| 0o644 } := inode_setInode_self _ i _
      have parent' : (V.allocIno (sIfreg ||| 0o644) i).inode q = V.inode q := (frame_allocIno V _ i).inode q differ
      have made : Leads V [.make i] (V.allocIno (sIfreg ||| 0o644) i) := by
        refine held.one (frame_allocIno V _ i) rfl (held.idle free.2.2.2) ?_ (by rw [new]; rfl)
        rw [files_bytes (by rw [(frame_allocIno V _ i).inodes]; exact free.2.1) (by rw [new]; decide), contents_empty (by rw [new]; rfl)]
        refine (ByteFiles.Step.make (if_neg ?_)).run
        rw [not_file_of_free free.2.2.2]
        exact fun h => Bool.noConfusion h.2
      refine made.trans (made.held.frame add.frame add.fds ?_ ?_)
      · rintro j rfl
        rw [isFile_mode add.mode, parent']
        exact ⟨not_file_of_dir dir, not_file_of_dir dir⟩
      · rintro fd - here
        rw [here, add.mode, parent']
        exact mode_ne_zero dir

theorem MkdirPost.moved {path : List UInt8} {mode : UInt16} {value : Int} (post : MkdirPost R V D path mode value V' D') (held : Held V)
    (dirs : ∀ q, parentOf V D path = some q → (V.inode q).isDir = true) : Leads V [] V' := by
  cases post with
  | noParent => exact held.refl
  | noInode => exact held.untouched ⟨rfl, rfl, fun _ _ => rfl, fun _ _ _ _ _ => rfl⟩ rfl
  | @noDot q i parent free =>
      have dir := dirs q parent
      have differ : q ≠ i := dir_ne_free dir free.2.2.2
      refine held.undone free.2.2.2 dir ⟨rfl, rfl, fun _ _ => rfl, fun _ _ _ _ _ => rfl⟩ rfl ?_
      exact congrArg Inode.mode ((frame_allocIno V (dirMode mode) i).inode q differ)
  | @noEntry q i W _ bs parent free first made took add =>
      have dir := dirs q parent
      have differ : q ≠ i := dir_ne_free dir free.2.2.2
      refine held.undone free.2.2.2 dir ((made.frame.mono fun _ => .inl).trans (add.frame.mono fun _ => .inr)) (add.fds.trans made.fds) ?_
      rw [add.mode, made.frame.inode q differ, (frame_allocIno V _ i).inode q differ]
  | @made q i W _ bs parent free first made took add =>
      have dir := dirs q parent
      have differ : q ≠ i := dir_ne_free dir free.2.2.2
      have frame : Frame (fun j => j = i ∨ j = q) V V' :=
        ((frame_allocIno V _ i).mono fun _ => .inl).trans ((made.frame.mono fun _ => .inl).trans (add.frame.mono fun _ => .inr))
      have parent' : (V'.inode q).mode = (V.inode q).mode := by
        rw [add.mode, made.frame.inode q differ, (frame_allocIno V _ i).inode q differ]
      have child : (V'.inode i).isDir = true := by
        have mode' : ((V.allocIno (dirMode mode) i).inode i).mode = dirMode mode := congrArg Inode.mode (inode_setInode_self _ i _)
        rw [Inode.isDir, add.frame.inode i differ.symm, made.mode, mode']
        exact bne_iff_ne.mpr (isDir_dirMode mode)
      refine held.frame frame (add.fds.trans made.fds) ?_ ?_
      · rintro j (rfl | rfl)
        · exact ⟨not_file_of_free free.2.2.2, not_file_of_dir child⟩
        · rw [isFile_mode parent']
          exact ⟨not_file_of_dir dir, not_file_of_dir dir⟩
      · rintro fd used (here | here)
        · exact absurd here (held.idle free.2.2.2 fd used)
        · rw [here, parent']
          exact mode_ne_zero dir

inductive Drops (file : Nat → Bool) (target : Option Nat) (value : Int) : List Event → Prop
  | failed (failed : value = -1) : Drops file target value []
  | other {i : Nat} (leads : target = some i) (other : file i = false) : Drops file target value []
  | dropped {i : Nat} (leads : target = some i) (plain : file i = true) (success : value = 0) : Drops file target value [.drop i]

theorem UnlinkPost.moved {path : List UInt8} {value : Int} (post : UnlinkPost R V D path value V' D') (consistent : Consistent R dirModes V D)
    (held : Held V) (dirs : ∀ q, parentOf V D path = some q → (V.inode q).isDir = true)
    (idle : ∀ i, resolve V D path = some i → ∀ fd, (V.fds fd).inode ≠ 0 → (V.fds fd).inode ≠ i) :
    ∃ es, Drops (fun i => isFile (V.inode i)) (resolve V D path) value es ∧ Leads V es V' := by
  cases post with
  | noParent | noTarget | noEntry => exact ⟨[], .failed rfl, held.refl⟩
  | @removed q i V₁ W bs parent target found edited data freed own =>
      have dir := dirs q parent
      have idle := idle i target
      have fds : (W.freeIno i).fds = V₁.fds := by rw [Vol.freeIno, Vol.giveIno, Vol.setInode, freed.frame]
      have frame : Frame (· = i) V₁ (W.freeIno i) := (freed.framed.mono fun _ => False.elim).trans (frame_freeIno W i)
      have here : (W.freeIno i).inode i = .zero := by simp [Vol.freeIno, Vol.giveIno, Vol.setInode]
      cases kind : isFile (V.inode i) with
      | true =>
          have differ : i ≠ q := by
            rintro rfl
            rw [not_file_of_dir dir] at kind
            cases kind
          have removed : Leads V [] V₁ := by
            refine held.frame edited.frame edited.fds ?_ ?_
            · rintro j rfl
              rw [isFile_mode edited.mode]
              exact ⟨not_file_of_dir dir, not_file_of_dir dir⟩
            · rintro fd - same
              rw [same, edited.mode]
              exact mode_ne_zero dir
          have idle' : ∀ fd, (V₁.fds fd).inode ≠ 0 → (V₁.fds fd).inode ≠ i := by rwa [edited.fds]
          have file : isFile (V₁.inode i) = true := by rwa [edited.frame.inode i differ]
          have hi : i < V₁.inodes := by rw [edited.frame.inodes]; exact consistent.resolve_lt target
          refine ⟨[] ++ [.drop i], .dropped target kind rfl, removed.trans (removed.held.one frame fds idle' ?_ (by rw [here]; rfl))⟩
          have gone : (files (W.freeIno i)).bytes i = none := if_neg fun h => by simp [here, isFile_zero] at h
          rw [gone]
          exact (ByteFiles.Step.drop (files_bytes hi file) (files_idle idle')).run
      | false =>
          have whole : Frame (fun j => j = q ∨ j = i) V (W.freeIno i) := (edited.frame.mono fun _ => .inl).trans (frame.mono fun _ => .inr)
          refine ⟨[], .other target kind, held.frame whole (fds.trans edited.fds) ?_ ?_⟩
          · rintro j (rfl | rfl)
            · refine ⟨not_file_of_dir dir, ?_⟩
              by_cases same : j = i
              · rw [same, here]
                exact isFile_zero
              · rw [frame.inode j same, isFile_mode edited.mode]
                exact not_file_of_dir dir
            · rw [here]
              exact ⟨kind, isFile_zero⟩
          · rintro fd used (same | same)
            · have other := idle fd used
              rw [frame.inode _ other, same, edited.mode]
              exact mode_ne_zero dir
            · exact absurd same (idle fd used)

theorem ReadPost.atMost {fd : Int} {n : Nat} {r : Int × List UInt8} (post : ReadPost V fd n r V')
    (word : (V.fds fd.toNat).pos + n < 2 ^ 32) : ReadPost V fd (min n (V.inode (V.fds fd.toNat).inode).size.toNat) r V' := by
  cases post with
  | refused h => exact .refused h
  | ended h => exact .ended h
  | bytes descriptor inode inside length bound solid stop =>
      refine .bytes descriptor inode inside ?_ bound solid stop
      subst descriptor inode
      rw [length]
      split <;> split <;> omega

theorem contents_length (data : Nat → Block) (x : Inode) : (contents data x).length = x.size.toNat := by simp [contents]

inductive Reads (fds : Nat → Fd) (file : Bool) (fd : Int) (n : Nat) (value : Int) (bytes : List UInt8) : List Event → Prop
  | refused (failed : value = -1) (none : bytes = []) (why : fdOpen fds fd = false ∨ (fds fd.toNat).flags = oWronly) :
      Reads fds file fd n value bytes []
  | other (other : file = false) : Reads fds file fd n value bytes []
  | read (opened : fdOpen fds fd = true) (length : value = bytes.length) : Reads fds file fd n value bytes [.read fd.toNat n bytes]

theorem fdOpen_used {fds : Nat → Fd} {fd : Int} (opened : fdOpen fds fd = true) : (fds fd.toNat).inode ≠ 0 := by
  simp only [fdOpen, Bool.and_eq_true, bne_iff_ne] at opened
  exact opened.2

theorem ReadPost.seek {fd : Int} {n : Nat} {value : Int} {bytes : List UInt8} (post : ReadPost V fd n (value, bytes) V')
    (word : (V.fds fd.toNat).pos + n < 2 ^ 32) :
    V' = V.setFd fd.toNat { V.fds fd.toNat with pos := (V.fds fd.toNat).pos + bytes.length } := by
  have stay : V = V.setFd fd.toNat (V.fds fd.toNat) := by rw [Vol.setFd, Function.update_eq_self]
  cases post with
  | refused => exact stay
  | ended => exact stay
  | @bytes f x toRead d descriptor inode inside length bound solid stop =>
      subst descriptor inode
      have short : d ≤ n := by
        split at length <;> omega
      rw [List.length_map, List.length_range, Nat.mod_eq_of_lt (by omega)]

theorem ReadPost.moved {fd : Int} {n : Nat} {value : Int} {bytes : List UInt8} (post : ReadPost V fd n (value, bytes) V')
    (consistent : Consistent R dirModes V D) (held : Held V) (word : (V.fds fd.toNat).pos + n < 2 ^ 32)
    (opened : value ≠ -1 → fdOpen V.fds fd = true ∧ (V.fds fd.toNat).flags ≠ oWronly) :
    ∃ es, Reads V.fds (isFile (V.inode (V.fds fd.toNat).inode)) fd n value bytes es ∧ Leads V es V' := by
  by_cases refused : value = -1 ∧ bytes = [] ∧ (fdOpen V.fds fd = false ∨ (V.fds fd.toNat).flags = oWronly)
  · obtain ⟨failed, rfl, why⟩ := refused
    refine ⟨[], .refused failed rfl why, ?_⟩
    have stay : V' = V := by
      rw [post.seek word, List.length_nil, Nat.add_zero, Vol.setFd, Function.update_eq_self]
    rw [stay]
    exact held.refl
  · obtain ⟨opened, readable⟩ : fdOpen V.fds fd = true ∧ (V.fds fd.toNat).flags ≠ oWronly := by
      refine opened ?_
      rintro rfl
      cases post with
      | refused why => exact refused ⟨rfl, rfl, why⟩
    have used := fdOpen_used opened
    have live := held.live fd.toNat used
    have moved := post.seek word
    cases kind : isFile (V.inode (V.fds fd.toNat).inode) with
    | true =>
        have hi := consistent.fds fd.toNat
        have whole := (post.atMost word).whole opened readable rfl (held.solid _ hi kind) (Nat.min_le_right _ _)
        obtain ⟨value', bytes'⟩ := Prod.mk.inj whole
        have length : ((contents V.data (V.inode (V.fds fd.toNat).inode)).drop (V.fds fd.toNat).pos).length =
            (V.inode (V.fds fd.toNat).inode).size.toNat - (V.fds fd.toNat).pos := by rw [List.length_drop, contents_length]
        have all : bytes = ((contents V.data (V.inode (V.fds fd.toNat).inode)).drop (V.fds fd.toNat).pos).take n := by
          rw [bytes']
          by_cases short : n ≤ (V.inode (V.fds fd.toNat).inode).size.toNat
          · rw [Nat.min_eq_left short]
          · rw [List.take_of_length_le (by omega), List.take_of_length_le (by omega)]
        refine ⟨[.read fd.toNat n bytes], .read opened ?_, ?_⟩
        · rw [value', bytes', List.length_take, length]
        · rw [moved]
          refine held.setFd ?_ fun _ => live
          rw [files_setFd, cursorOf, if_pos ⟨used, kind⟩]
          have step := ByteFiles.Step.read (n := n) (files_cursor used kind) (files_bytes hi kind)
          rw [← all] at step
          exact step.run
    | false =>
        refine ⟨[], .other rfl, ?_⟩
        rw [moved]
        refine held.setFd ?_ fun _ => live
        have same : (files V).setCursor fd.toNat none = files V := by
          rw [ByteFiles.setCursor, ← files_cursor_none (.inr kind), Function.update_eq_self]
        rw [files_setFd, cursorOf, if_neg fun h => by simp [kind] at h, same]
        exact .nil

inductive Writes (fds : Nat → Fd) (fd : Int) (buf : List UInt8) (value : Int) : List Event → Prop
  | refused (failed : value = -1) (why : fdOpen fds fd = false ∨ (fds fd.toNat).flags = oRdonly) : Writes fds fd buf value []
  | wrote {d : Nat} (opened : fdOpen fds fd = true) (count : value = d) (short : d ≤ buf.length) :
      Writes fds fd buf value [.write fd.toNat (fds fd.toNat).inode (buf.take d)]

theorem WritePost.fds {fd : Int} {buf : List UInt8} {d : Nat} (post : WritePost R V fd buf d V') :
    V'.fds = Function.update V.fds fd.toNat { V.fds fd.toNat with pos := ((V.fds fd.toNat).pos + d) % 2 ^ 32 } := by
  generalize value : (d : Int) = n at post
  cases post with
  | refused => cases value
  | @wrote f W x' d' _ descriptor _ wrote =>
      obtain rfl := Int.ofNat.inj value
      subst descriptor
      have fds : W.fds = V.fds := by rw [wrote.ext.frame]
      rw [Vol.setFd, Vol.setInode]
      dsimp only
      rw [fds]

theorem WritePost.moved {fd : Int} {buf : List UInt8} {value : Int} (post : WritePost R V fd buf value V')
    (consistent : Consistent R dirModes V D) (held : Held V)
    (file : fdOpen V.fds fd = true → (V.inode (V.fds fd.toNat).inode).isDir = false) :
    ∃ es, Writes V.fds fd buf value es ∧ Leads V es V' := by
  have hi := consistent.fds fd.toNat
  have frame := post.frame consistent
  have mode := post.mode
  by_cases refused : fdOpen V.fds fd = false ∨ (V.fds fd.toNat).flags = oRdonly
  · cases post with
    | refused why => exact ⟨[], .refused rfl why, held.refl⟩
    | wrote opened descriptor writable =>
        subst descriptor
        rcases refused with closed | readOnly
        · rw [closed] at opened
          cases opened
        · exact absurd readOnly writable
  · obtain ⟨opened, writable⟩ := not_or.mp refused
    rw [Bool.not_eq_false] at opened
    have used := fdOpen_used opened
    have kind : isFile (V.inode (V.fds fd.toNat).inode) = true := isFile_iff.mpr ⟨held.live _ used, file opened⟩
    have cursor := files_cursor used kind
    have bytes := files_bytes hi kind
    have start : (V.fds fd.toNat).pos ≤ (V.inode (V.fds fd.toNat).inode).size.toNat := by
      obtain ⟨bs, here, bound⟩ := held.good _ _ _ cursor
      obtain rfl := Option.some.inj (bytes.symm.trans here)
      rwa [contents_length] at bound
    obtain ⟨d, rfl, short, own, inodes, -, written, size, solid, -, -⟩ :=
      post.file consistent.own opened writable hi rfl rfl rfl (held.solid _ hi kind) start
    have word : (V.fds fd.toNat).pos + d < 2 ^ 32 := by
      have := solid.le
      omega
    have fds := post.fds
    rw [Nat.mod_eq_of_lt word] at fds
    have kinds (j : Nat) : isFile (V'.inode j) = isFile (V.inode j) := isFile_mode (mode j)
    have length : (buf.take d).length = d := by
      rw [List.length_take]
      omega
    have same : files V' = ((files V).setBytes (V.fds fd.toNat).inode
        (some (splice (contents V.data (V.inode (V.fds fd.toNat).inode)) (V.fds fd.toNat).pos (buf.take d)))).setCursor fd.toNat
        (some ((V.fds fd.toNat).inode, (V.fds fd.toNat).pos + (buf.take d).length)) := by
      refine files_ext (fun j => ?_) fun k => ?_
      · rw [ByteFiles.setCursor_bytes, ByteFiles.setBytes_bytes]
        by_cases here : j = (V.fds fd.toNat).inode
        · rw [here, Function.update_self, files_bytes (by rwa [inodes]) (by rwa [kinds]), written, splice, length]
        · rw [Function.update_of_ne here]
          exact frame.bytes_eq here
      · rw [ByteFiles.setCursor_cursor, ByteFiles.setBytes_cursor, length]
        unfold files cursorOf
        dsimp only
        rw [fds]
        by_cases here : k = fd.toNat
        · subst here
          rw [Function.update_self, Function.update_self, if_pos ⟨used, by rwa [kinds]⟩]
        · rw [Function.update_of_ne here, Function.update_of_ne here, kinds]
    refine ⟨_, .wrote opened rfl short, held.moved ?_ (fun j hj fileJ => ?_) fun k usedK => ?_⟩
    · rw [same]
      exact (ByteFiles.Step.write cursor bytes).run
    · by_cases here : j = (V.fds fd.toNat).inode
      · rw [here, size]
        exact solid
      · exact frame.solid held hj here fileJ
    · have inode : (V'.fds k).inode = (V.fds k).inode := by
        rw [fds]
        by_cases here : k = fd.toNat
        · subst here
          rw [Function.update_self]
        · rw [Function.update_of_ne here]
      rw [inode] at usedK ⊢
      rw [mode]
      exact held.live k usedK

end SwiftBSD.Proof.Fs
