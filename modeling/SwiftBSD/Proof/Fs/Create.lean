import SwiftBSD.Proof.Fs.Namespace

namespace SwiftBSD.Proof.Fs
open Lib SwiftBSD.Fs

variable {R : Nat → Prop} {K : UInt16 → Prop} {V V' : Vol} {D D' : Nat → List (List Rec)} {i : Nat} {x : Inode}
  {path : List UInt8}

theorem Own.setBare (own : Own R V) (direct : ∀ k, x.direct k = 0) (indirect : x.indirect = 0) :
    Own R (V.setInode i x) := by
  refine ⟨@Owns.clear _ _ _ V.slots _ own.owns fun p => ?_, own.reserved⟩
  by_cases here : p.1 = i
  · left
    unfold Vol.slots
    split
    · rw [here, Vol.setInode]
      simp only [Function.update_self]
      exact slot_bare direct indirect p.2
    · rfl
  · exact .inr (slots_setInode_of_ne here)

theorem frame_setInode (V : Vol) (i : Nat) (x : Inode) : Frame (· = i) V (V.setInode i x) :=
  ⟨rfl, rfl, fun _ other => Function.update_of_ne other _ _, fun _ _ _ _ _ => rfl⟩

theorem inode_setInode_self (V : Vol) (i : Nat) (x : Inode) : (V.setInode i x).inode i = x := by
  simp [Vol.setInode]

theorem Consistent.setBare (c : Consistent R K V D) (direct : ∀ k, x.direct k = 0) (indirect : x.indirect = 0)
    (double : x.doubleIndirect = 0) : Consistent R K (V.setInode i x) (Function.update D i []) := by
  refine c.of_frame (frame_setInode V i x) (c.own.setBare direct indirect)
    (fun j other => Function.update_of_ne other _ _) ?_ ?_ c.fds
  · rintro j - rfl
    rw [inode_setInode_self]
    exact double
  · rintro j - rfl -
    rw [inode_setInode_self, Function.update_self]
    exact directory_empty direct indirect

theorem Consistent.counts (c : Consistent R K V D) {freeInodes : UInt64} {groupFreeInodes : Nat → UInt32} :
    Consistent R K { V with freeInodes, groupFreeInodes } D :=
  c.same ⟨rfl, rfl, fun _ _ => rfl, fun _ _ _ _ _ => rfl⟩ ⟨c.own.owns, c.own.reserved⟩ rfl

/-- The volume after `inode_alloc` gave out inode `i`. -/
def Vol.allocIno (V : Vol) (mode : UInt16) (i : Nat) : Vol :=
  (V.refresh.setInode i { Inode.zero with mode }).takeIno i

def Vol.freeIno (V : Vol) (i : Nat) : Vol := (V.setInode i .zero).giveIno i

theorem frame_allocIno (V : Vol) (mode : UInt16) (i : Nat) : Frame (· = i) V (V.allocIno mode i) :=
  ⟨rfl, rfl, fun _ other => Function.update_of_ne other _ _, fun _ _ _ _ _ => rfl⟩

theorem frame_freeIno (V : Vol) (i : Nat) : Frame (· = i) V (V.freeIno i) :=
  ⟨rfl, rfl, fun _ other => Function.update_of_ne other _ _, fun _ _ _ _ _ => rfl⟩

theorem Consistent.allocIno (c : Consistent R K V D) (mode : UInt16) (i : Nat) :
    Consistent R K (V.allocIno mode i) (Function.update D i []) :=
  Consistent.counts (c.refresh.setBare (fun _ => rfl) rfl rfl)

theorem Consistent.freeIno (c : Consistent R K V D) (i : Nat) : Consistent R K (V.freeIno i) (Function.update D i []) :=
  Consistent.counts (c.setBare (fun _ => rfl) rfl rfl)

theorem Consistent.parent_allocIno (c : Consistent R K V D) (mode : UInt16) (i : Nat) {p : Nat} (hp : p < V.inodes)
    (hK : K (V.inode p).mode) :
    Directory (V.allocIno mode i) ((V.allocIno mode i).inode p) (Function.update D i [] p) := by
  by_cases same : p = i
  · subst same
    rw [Function.update_self]
    refine directory_empty (fun k => ?_) ?_
    · simp [Vol.allocIno, Vol.takeIno, Vol.setInode, Inode.zero]
    · simp [Vol.allocIno, Vol.takeIno, Vol.setInode, Inode.zero]
  · rw [Function.update_of_ne same]
    exact Directory.frame (frame_allocIno V mode i) hp same (c.dirs p hp hK)

theorem AddPost.consistent {p child : Nat} {name : List UInt8} {r : Int} {bs : List (List Rec)}
    (c : Consistent R K V D) (post : AddPost R V p (D p) name child r V' bs) :
    Consistent R K V' (Function.update D p bs) := by
  cases post with
  | fit _ edited => exact c.edit edited
  | full =>
      rw [Function.update_eq_self]
      exact c.exhaust
  | leak _ _ own frame fds =>
      rw [Function.update_eq_self]
      exact c.same frame own fds
  | grow _ _ edited => exact c.edit edited
  | lost _ _ edited => exact c.edit edited

theorem AddPost.failed {p child : Nat} {name : List UInt8} {bs bs' : List (List Rec)}
    (post : AddPost R V p bs name child (-1) V' bs') : bs' = bs := by
  cases post <;> rfl

theorem AddPost.result {p child : Nat} {name : List UInt8} {bs bs' : List (List Rec)} {r : Int}
    (post : AddPost R V p bs name child r V' bs') : r = 0 ∨ r = -1 := by
  cases post <;> simp

theorem AddPost.inodes {p child : Nat} {name : List UInt8} {bs bs' : List (List Rec)} {r : Int}
    (post : AddPost R V p bs name child r V' bs') : V'.inodes = V.inodes := by
  cases post with
  | fit _ edited => exact edited.frame.inodes
  | full => rfl
  | leak _ _ _ frame => exact frame.inodes
  | grow _ _ edited => exact edited.frame.inodes
  | lost _ _ edited => exact edited.frame.inodes

theorem AddPost.frame {p child : Nat} {name : List UInt8} {bs bs' : List (List Rec)} {r : Int}
    (post : AddPost R V p bs name child r V' bs') : Frame (· = p) V V' := by
  cases post with
  | fit _ edited => exact edited.frame
  | full => exact ⟨rfl, rfl, fun _ _ => rfl, fun _ _ _ _ _ => rfl⟩
  | leak _ _ _ frame => exact frame.mono fun _ => False.elim
  | grow _ _ edited => exact edited.frame
  | lost _ _ edited => exact edited.frame

theorem AddPost.edited {p child : Nat} {name : List UInt8} {bs bs' : List (List Rec)}
    (post : AddPost R V p bs name child 0 V' bs') : Edited R p V V' bs' := by
  cases post with
  | fit _ edited => exact edited
  | grow _ _ edited => exact edited
  | lost _ _ edited => exact edited

/-- What `swiftfs2_open` can do to create a file that path lookup has not found. -/
inductive CreatePost (R : Nat → Prop) (V : Vol) (D : Nat → List (List Rec)) (path : List UInt8) :
    Option Nat → Vol → (Nat → List (List Rec)) → Prop
  | noParent (parent : parentOf V D path = none) : CreatePost R V D path none V D
  | noInode {p : Nat} (parent : parentOf V D path = some p)
      (full : V.roomy = true → ∀ i, ¬ V.FreeIno i) :
      CreatePost R V D path none V.refresh D
  | noEntry {p i : Nat} {V' : Vol} {bs : List (List Rec)} (parent : parentOf V D path = some p) (free : V.FreeIno i)
      (first : V.roomy = true → ∀ j < i, ¬ V.FreeIno j)
      (add : AddPost R (V.allocIno (sIfreg ||| 0o644) i) p (Function.update D i [] p) (splitParent path).2 i (-1) V' bs) :
      CreatePost R V D path none (V'.freeIno i) (Function.update D i [])
  | created {p i : Nat} {V' : Vol} {bs : List (List Rec)} (parent : parentOf V D path = some p) (free : V.FreeIno i)
      (first : V.roomy = true → ∀ j < i, ¬ V.FreeIno j)
      (add : AddPost R (V.allocIno (sIfreg ||| 0o644) i) p (Function.update D i [] p) (splitParent path).2 i 0 V' bs) :
      CreatePost R V D path (some i) V' (Function.update (Function.update D i []) p bs)

/-- Names end before byte 255, and what is used as a parent directory looks like one. -/
def Addable (K : UInt16 → Prop) (V : Vol) (D : Nat → List (List Rec)) (path : List UInt8) : Prop :=
  (splitParent path).2.length ≤ 254 ∧ ∀ p, parentOf V D path = some p → K (V.inode p).mode

theorem runs_openCreate (c : Consistent R K V D) (nul : 0 ∉ path) (ok : Addable K V D path) :
    Runs Rep (openCreate path) V fun r V' => ∃ D', CreatePost R V D path r V' D' := by
  unfold openCreate
  refine .bind (runs_parentWalk c nul) ?_
  rintro _ V ⟨rfl, rfl⟩
  cases parent : parentOf V D path with
  | none => exact .pure ⟨D, .noParent parent⟩
  | some p =>
      have hp := c.parentOf_lt parent
      refine .bind (runs_inodeAlloc _) ?_
      rintro i W alloc
      cases alloc with
      | none full =>
          rw [if_pos rfl]
          exact .pure ⟨D, .noInode parent full⟩
      | some free first =>
          obtain ⟨positive, bound, -⟩ := id free
          rw [if_neg (by omega)]
          have c' := c.allocIno (sIfreg ||| 0o644) i
          have dir := c.parent_allocIno (sIfreg ||| 0o644) i hp (ok.2 p parent)
          refine .bind (runs_dirAddEntry dir c'.own hp c'.bound ok.1 positive bound) ?_
          rintro r V' ⟨bs, add⟩
          rcases add.result with rfl | rfl
          · rw [if_neg (by decide)]
            exact .pure ⟨_, .created parent free first add⟩
          · rw [if_pos (by decide)]
            refine .bind (runs_inodeFree (by rw [add.inodes]; exact bound) (by omega)) ?_
            rintro _ _ rfl
            exact .pure ⟨_, .noEntry parent free first add⟩

theorem CreatePost.consistent {r : Option Nat} (c : Consistent R K V D) (post : CreatePost R V D path r V' D') :
    Consistent R K V' D' := by
  cases post with
  | noParent => exact c
  | noInode => exact c.refresh
  | @noEntry p i V' bs parent free first add =>
      have := (add.consistent (c.allocIno (sIfreg ||| 0o644) i)).freeIno i
      rw [add.failed, Function.update_eq_self, Function.update_idem] at this
      exact this
  | @created p i V' bs parent free first add =>
      exact add.consistent (c.allocIno (sIfreg ||| 0o644) i)

def dot : List UInt8 := [0x2e]

def dotdot : List UInt8 := [0x2e, 0x2e]

def dirMode (mode : UInt16) : UInt16 := sIfdir ||| (mode &&& 0o777)

def newDir (i p : Nat) : List Rec := [⟨12, i, dot⟩, ⟨12, p, dotdot⟩, .free 4072]

inductive MkdirPost (R : Nat → Prop) (V : Vol) (D : Nat → List (List Rec)) (path : List UInt8) (mode : UInt16) :
    Int → Vol → (Nat → List (List Rec)) → Prop
  | noParent (parent : parentOf V D path = none) : MkdirPost R V D path mode (-1) V D
  | noInode {p : Nat} (parent : parentOf V D path = some p)
      (full : V.roomy = true → ∀ i, ¬ V.FreeIno i) :
      MkdirPost R V D path mode (-1) V.refresh D
  | noDot {p i : Nat} (parent : parentOf V D path = some p) (free : V.FreeIno i)
      (first : V.roomy = true → ∀ j < i, ¬ V.FreeIno j)
      (out : V.roomy = true → V.NoBlock) :
      MkdirPost R V D path mode (-1) ((V.allocIno (dirMode mode) i).exhaust.freeIno i) (Function.update D i [])
  | noEntry {p i : Nat} {V₁ V' : Vol} {bs : List (List Rec)} (parent : parentOf V D path = some p) (free : V.FreeIno i)
      (first : V.roomy = true → ∀ j < i, ¬ V.FreeIno j)
      (made : Edited R i (V.allocIno (dirMode mode) i) V₁ [newDir i p]) (took : V.avail = V₁.avail + 1)
      (add : AddPost R V₁ p (Function.update D i [newDir i p] p) (splitParent path).2 i (-1) V' bs) :
      MkdirPost R V D path mode (-1) (V'.freeIno i) (Function.update D i [])
  | made {p i : Nat} {V₁ V' : Vol} {bs : List (List Rec)} (parent : parentOf V D path = some p) (free : V.FreeIno i)
      (first : V.roomy = true → ∀ j < i, ¬ V.FreeIno j)
      (made : Edited R i (V.allocIno (dirMode mode) i) V₁ [newDir i p]) (took : V.avail = V₁.avail + 1)
      (add : AddPost R V₁ p (Function.update D i [newDir i p] p) (splitParent path).2 i 0 V' bs) :
      MkdirPost R V D path mode 0 V' (Function.update (Function.update D i [newDir i p]) p bs)

theorem insertDir_dotdot {p : Nat} (positive : 0 < i) :
    insertDir (entryLen dotdot) p dotdot [newBlock i dot] = some [newDir i p] := by
  have nonzero : i ≠ 0 := by omega
  simp [insertDir, updateFirst, insertRec, newBlock, Rec.takes, entryLen, Rec.free, dot, dotdot, nonzero, Rec.use, newDir]

theorem Edited.trans {V'' : Vol} {bs bs' : List (List Rec)} (first : Edited R i V V' bs) (second : Edited R i V' V'' bs') :
    Edited R i V V'' bs' :=
  ⟨second.own, first.frame.trans second.frame, second.dir, second.mode.trans first.mode,
    second.double.trans first.double, second.fds.trans first.fds, second.freeInodes.trans first.freeInodes,
    second.groupFreeInodes.trans first.groupFreeInodes⟩

theorem Consistent.made {mode : UInt16} {bs : List (List Rec)} (c : Consistent R K V D)
    (made : Edited R i (V.allocIno mode i) V' bs) : Consistent R K V' (Function.update D i bs) := by
  have := (c.allocIno mode i).edit made
  rwa [Function.update_idem] at this

theorem Consistent.parent_made {mode : UInt16} {bs : List (List Rec)} {p : Nat} (c : Consistent R K V D)
    (made : Edited R i (V.allocIno mode i) V' bs) (hp : p < V.inodes) (hK : K (V.inode p).mode) :
    Directory V' (V'.inode p) (Function.update D i bs p) := by
  by_cases same : p = i
  · subst same
    rw [Function.update_self]
    exact made.dir
  · rw [Function.update_of_ne same]
    exact Directory.frame ((frame_allocIno V mode i).trans made.frame) hp same (c.dirs p hp hK)

theorem runs_swiftfs2Mkdir (c : Consistent R K V D) (nul : 0 ∉ path) (mode : UInt16) (ok : Addable K V D path) :
    Runs Rep (swiftfs2Mkdir path mode) V fun r V' => ∃ D', MkdirPost R V D path mode r V' D' := by
  unfold swiftfs2Mkdir
  refine .bind runs_get ?_
  rintro s V ⟨rfl, rep⟩
  rw [rep.layout.mounted]
  simp only [Bool.not_true, Bool.false_eq_true, if_false]
  refine .bind (runs_parentWalk c nul) ?_
  rintro _ V ⟨rfl, rfl⟩
  cases parent : parentOf V D path with
  | none => exact .pure ⟨D, .noParent parent⟩
  | some p =>
      have hp := c.parentOf_lt parent
      dsimp only
      unfold mkdirIn
      refine .bind (runs_inodeAlloc _) ?_
      rintro i W alloc
      cases alloc with
      | none full =>
          rw [if_pos rfl]
          exact .pure ⟨D, .noInode parent full⟩
      | some free first =>
          obtain ⟨positive, bound, -⟩ := id free
          rw [if_neg (by omega)]
          have c₁ := c.allocIno (dirMode mode) i
          have empty : Directory (V.allocIno (dirMode mode) i) ((V.allocIno (dirMode mode) i).inode i) [] := by
            refine directory_empty (fun k => ?_) ?_
            · simp [Vol.allocIno, Vol.takeIno, Vol.setInode, Inode.zero]
            · simp [Vol.allocIno, Vol.takeIno, Vol.setInode, Inode.zero]
          refine .bind (@runs_dirAddEntry _ _ _ _ _ dot _ empty c₁.own bound c₁.bound (by decide) positive bound) ?_
          rintro r V₂ ⟨bs, add⟩
          cases add with
          | fit found => cases found
          | leak _ length => cases length
          | lost _ length => cases length
          | full _ out =>
              rw [if_pos (by decide)]
              refine .bind (runs_inodeFree (V := (V.allocIno (dirMode mode) i).exhaust) bound (by omega)) ?_
              rintro _ _ rfl
              exact .pure ⟨_, .noDot parent free first out⟩
          | grow _ _ edited _ took =>
              rw [if_neg (by decide)]
              have bound₂ : i < V₂.inodes := by rw [edited.frame.inodes]; exact bound
              have hp₂ : p < V₂.inodes := by rw [edited.frame.inodes]; exact hp
              have groups₂ : V₂.groups ≤ 131072 := by rw [edited.frame.groups]; exact c.bound
              refine .bind (@runs_dirAddEntry _ _ _ _ _ dotdot _ edited.dir edited.own bound₂ groups₂ (by decide)
                (parentOf_pos parent) hp₂) ?_
              rintro r V₃ ⟨bs, add⟩
              have found := insertDir_dotdot (p := p) positive
              cases add with
              | full none => rw [List.nil_append, found] at none; cases none
              | leak none => rw [List.nil_append, found] at none; cases none
              | grow none => rw [List.nil_append, found] at none; cases none
              | lost none => rw [List.nil_append, found] at none; cases none
              | fit found' edited' data =>
                  rw [List.nil_append, found] at found'
                  obtain rfl := Option.some.inj found'
                  rw [if_neg (by decide)]
                  have made := edited.trans edited'
                  have took : V.avail = V₃.avail + 1 := by
                    rw [data]
                    exact took
                  have dir := c.parent_made made hp (ok.2 p parent)
                  have bound₃ : i < V₃.inodes := by rw [made.frame.inodes]; exact bound
                  have hp₃ : p < V₃.inodes := by rw [made.frame.inodes]; exact hp
                  have groups₃ : V₃.groups ≤ 131072 := by rw [made.frame.groups]; exact c.bound
                  refine .bind (runs_dirAddEntry dir made.own hp₃ groups₃ ok.1 positive bound₃) ?_
                  rintro r V' ⟨bs, add⟩
                  rcases add.result with rfl | rfl
                  · rw [if_neg (by decide)]
                    exact .pure ⟨_, .made parent free first made took add⟩
                  · rw [if_pos (by decide)]
                    refine .bind (runs_inodeFree (by rw [add.inodes]; exact bound₃) (by omega)) ?_
                    rintro _ _ rfl
                    exact .pure ⟨_, .noEntry parent free first made took add⟩

theorem MkdirPost.consistent {mode : UInt16} {r : Int} (c : Consistent R K V D)
    (post : MkdirPost R V D path mode r V' D') : Consistent R K V' D' := by
  cases post with
  | noParent => exact c
  | noInode => exact c.refresh
  | @noDot p i parent free first =>
      have := (c.allocIno (dirMode mode) i).exhaust.freeIno i
      rwa [Function.update_idem] at this
  | @noEntry p i V₁ V' bs parent free first made took add =>
      have := (add.consistent (c.made made)).freeIno i
      rwa [add.failed, Function.update_eq_self, Function.update_idem] at this
  | made parent free first made took add => exact add.consistent (c.made made)

end SwiftBSD.Proof.Fs
