import SwiftBSD.Proof.Fs.DataCalls
import SwiftBSD.Proof.Fs.FirstBlock
import SwiftBSD.Proof.Fs.NewFile
import SwiftBSD.Proof.Fs.Prefixes
import SwiftBSD.Proof.Fs.Resolution

namespace SwiftBSD.Proof.Fs
open Lib SwiftBSD.Fs

variable {R : Nat → Prop} {V V' V'' W : Vol} {D D' D'' : Nat → List (List Rec)} {bs bs' : List (List Rec)} {rs rs' : List Rec}
  {i j p child reclen : Nat} {name n path : List UInt8} {flags : UInt32} {s t u : FsState Disk} {c : Call} {r : Result}

/-- Records in use, and at most one free record behind them. -/
def Packed (rs : List Rec) : Prop := ∃ live : List Rec, (∀ r ∈ live, r.live = true) ∧ (rs = live ∨ ∃ len, rs = live ++ [.free len])

theorem not_takes_live {q : Rec} (live : q.live = true) : q.takes reclen = false := by
  unfold Rec.live at live
  unfold Rec.takes
  rw [beq_eq_false_iff_ne.mpr (bne_iff_ne.mp live), Bool.false_and]

theorem visible_append {live : List Rec} (all : ∀ r ∈ live, r.live = true) (rest : List Rec) : visible (live ++ rest) = live ++ visible rest :=
  List.takeWhile_append_of_pos all

theorem packed_insert (nonzero : child ≠ 0) (packed : Packed rs) (found : insertRec reclen child name rs = some rs') :
    Packed rs' ∧ ∃ q : Rec, q.name = name ∧ q.ino = child ∧ visible rs' = visible rs ++ [q] := by
  have live : (child != 0) = true := bne_iff_ne.mpr nonzero
  have new : ∀ len, Rec.live ⟨len, child, name⟩ = true := fun _ => live
  obtain ⟨used, all, rfl | ⟨len, rfl⟩⟩ := packed
  · rw [insertRec_none fun r member => not_takes_live (all r member)] at found
    cases found
  · have before : ∀ r ∈ used, r.takes reclen = false := fun r member => not_takes_live (all r member)
    by_cases takes : (Rec.free len).takes reclen = true
    · rw [insertRec_append before takes, List.append_nil] at found
      obtain rfl := Option.some.inj found
      unfold Rec.use
      have more : ∀ q : Rec, q.live = true → ∀ r ∈ used ++ [q], r.live = true := by
        intro q here r member
        rcases List.mem_append.mp member with old | last
        · exact all r old
        · rw [List.mem_singleton.mp last]
          exact here
      split
      · refine ⟨⟨used ++ [⟨reclen, child, name⟩], more _ (new _), .inr ⟨(Rec.free len).len - reclen, ?_⟩⟩, ⟨reclen, child, name⟩, rfl, rfl, ?_⟩
        · rw [List.append_assoc]
          rfl
        · rw [visible_append all, visible_append all]
          simp [visible, Rec.live, Rec.free, live]
      · refine ⟨⟨used ++ [⟨_, child, name⟩], more _ (new _), .inl rfl⟩, ⟨(Rec.free len).len, child, name⟩, rfl, rfl, ?_⟩
        rw [visible_append all, visible_append all]
        simp [visible, Rec.live, Rec.free, live]
    · have none : insertRec reclen child name (used ++ [.free len]) = none := by
        refine insertRec_none fun r member => ?_
        rcases List.mem_append.mp member with old | last
        · exact before r old
        · rw [List.mem_singleton.mp last]
          simpa using takes
      rw [none] at found
      cases found

theorem packed_newBlock (nonzero : child ≠ 0) : Packed (newBlock child name) := by
  refine ⟨[⟨entryLen name, child, name⟩], fun r member => ?_, .inr ⟨_, rfl⟩⟩
  rw [List.mem_singleton.mp member]
  exact bne_iff_ne.mpr nonzero

theorem packed_newDir (hi : i ≠ 0) (hp : p ≠ 0) : Packed (newDir i p) := by
  refine ⟨[⟨12, i, dot⟩, ⟨12, p, dotdot⟩], fun r member => ?_, .inr ⟨_, rfl⟩⟩
  rcases List.mem_cons.mp member with rfl | member
  · exact bne_iff_ne.mpr hi
  · rw [List.mem_singleton.mp member]
    exact bne_iff_ne.mpr hp

theorem find_insert {l l' : List Rec} {q : Rec} (absent : (l ++ l').find? (·.name = q.name) = none) (n : List UInt8) :
    (l ++ q :: l').find? (·.name = n) = if n = q.name then some q else (l ++ l').find? (·.name = n) := by
  rw [List.find?_append, Option.or_eq_none_iff] at absent
  rw [List.find?_append, List.find?_append]
  by_cases same : n = q.name
  · rw [if_pos same, same, absent.1, List.find?_cons_of_pos (by simp)]
    rfl
  · rw [if_neg same, List.find?_cons_of_neg (by simpa using fun h => same h.symm)]

/-- Every entry that is found is found again, and the name leads to the new inode. -/
structure Adds (bs bs' : List (List Rec)) (name : List UInt8) (child : Nat) : Prop where
  packed : ∀ rs ∈ bs', Packed rs
  lookup : ∀ n, lookup bs' n = if n = name then some child else lookup bs n

theorem lookup_none_iff : lookup bs name = none ↔ (seen bs).find? (·.name = name) = none := Option.map_eq_none_iff

theorem adds_of_seen {l l' : List Rec} {q : Rec} (packed : ∀ rs ∈ bs', Packed rs) (before : seen bs = l ++ l') (after : seen bs' = l ++ q :: l')
    (absent : lookup bs q.name = none) : Adds bs bs' q.name q.ino := by
  refine ⟨packed, fun n => ?_⟩
  rw [lookup_none_iff, before] at absent
  unfold Fs.lookup
  rw [before, after, find_insert absent]
  split
  · rfl
  · rfl

theorem adds_insertDir (nonzero : child ≠ 0) (packed : ∀ rs ∈ bs, Packed rs) (absent : lookup bs name = none)
    (found : insertDir reclen child name bs = some bs') : Adds bs bs' name child := by
  -- the record goes to the end of what is seen of its block
  have split : ∃ l l' q, seen bs = l ++ l' ∧ seen bs' = l ++ q :: l' ∧ q.name = name ∧ q.ino = child ∧ ∀ rs ∈ bs', Packed rs := by
    unfold insertDir at found
    clear absent
    induction bs generalizing bs' with
    | nil => cases found
    | cons rs bs ih =>
        rw [updateFirst] at found
        split at found
        · next rs' inserted =>
            obtain rfl := Option.some.inj found
            obtain ⟨packed', q, hn, hi, more⟩ := packed_insert nonzero (packed rs List.mem_cons_self) inserted
            refine ⟨visible rs, seen bs, q, rfl, ?_, hn, hi, fun x member => ?_⟩
            · unfold seen
              rw [List.flatMap_cons, more, List.append_assoc]
              rfl
            · rcases List.mem_cons.mp member with rfl | member
              · exact packed'
              · exact packed x (List.mem_cons_of_mem _ member)
        · obtain ⟨rest, inserted, rfl⟩ := Option.map_eq_some_iff.mp found
          obtain ⟨l, l', q, before, after, hn, hi, packed'⟩ := ih (fun x member => packed x (List.mem_cons_of_mem _ member)) inserted
          refine ⟨visible rs ++ l, l', q, ?_, ?_, hn, hi, fun x member => ?_⟩
          · unfold seen at before ⊢
            rw [List.flatMap_cons, before, List.append_assoc]
          · unfold seen at after ⊢
            rw [List.flatMap_cons, after, List.append_assoc]
          · rcases List.mem_cons.mp member with rfl | member
            · exact packed x List.mem_cons_self
            · exact packed' x member
  obtain ⟨l, l', q, before, after, rfl, rfl, packed'⟩ := split
  exact adds_of_seen packed' before after absent

theorem adds_newBlock (nonzero : child ≠ 0) (packed : ∀ rs ∈ bs, Packed rs) (absent : lookup bs name = none) :
    Adds bs (bs ++ [newBlock child name]) name child := by
  have live : (child != 0) = true := bne_iff_ne.mpr nonzero
  have block : visible (newBlock child name) = [⟨entryLen name, child, name⟩] := by simp [visible, newBlock, Rec.live, Rec.free, live]
  refine @adds_of_seen _ _ (seen bs) [] ⟨entryLen name, child, name⟩ (fun rs member => ?_) (List.append_nil _).symm ?_ absent
  · rcases List.mem_append.mp member with old | new
    · exact packed rs old
    · rw [List.mem_singleton.mp new]
      exact packed_newBlock nonzero
  · unfold seen
    rw [List.flatMap_append, List.flatMap_singleton, block]

theorem AddPost.lookups {r : Int} (post : AddPost R V p bs name child r V' bs') (nonzero : child ≠ 0) (packed : ∀ rs ∈ bs, Packed rs)
    (absent : lookup bs name = none) : bs' = bs ∧ (r = 0 → bs.length = 13) ∨ Adds bs bs' name child := by
  cases post with
  | fit found => exact .inr (adds_insertDir nonzero packed absent found)
  | full => exact .inl ⟨rfl, fun zero => absurd zero (by decide)⟩
  | leak => exact .inl ⟨rfl, fun zero => absurd zero (by decide)⟩
  | grow => exact .inr (adds_newBlock nonzero packed absent)
  | lost _ length => exact .inl ⟨rfl, fun _ => length⟩

theorem AddPost.mode {r : Int} (post : AddPost R V p bs name child r V' bs') : (V'.inode p).mode = (V.inode p).mode := by
  cases post with
  | fit _ edited => exact edited.mode
  | full => rfl
  | leak _ _ _ frame => rw [frame.inode p id]
  | grow _ _ edited => exact edited.mode
  | lost _ _ edited => exact edited.mode

def AllPacked (D : Nat → List (List Rec)) : Prop := ∀ i, ∀ rs ∈ D i, Packed rs

theorem AllPacked.update (all : AllPacked D) (packed : ∀ rs ∈ bs, Packed rs) : AllPacked (Function.update D i bs) := by
  intro j
  by_cases here : j = i
  · rw [here, Function.update_self]
    exact packed
  · rw [Function.update_of_ne here]
    exact all j

theorem AllPacked.clear (all : AllPacked D) (i : Nat) : AllPacked (Function.update D i []) :=
  all.update fun _ member => absurd member List.not_mem_nil

/-- Directories stay directories, and keep the entries that lookups find. -/
structure Grows (V : Vol) (D : Nat → List (List Rec)) (V' : Vol) (D' : Nat → List (List Rec)) : Prop where
  inodes : V'.inodes = V.inodes
  isDir : ∀ i < V.inodes, (V.inode i).isDir = true → (V'.inode i).isDir = true
  entries : ∀ i < V.inodes, (V.inode i).isDir = true → ∀ n j, lookup (D i) n = some j → lookup (D' i) n = some j

namespace Grows

theorem refl (V : Vol) (D : Nat → List (List Rec)) : Grows V D V D := ⟨rfl, fun _ _ => id, fun _ _ _ _ _ => id⟩

theorem trans (first : Grows V D V' D') (second : Grows V' D' V'' D'') : Grows V D V'' D'' where
  inodes := second.inodes.trans first.inodes
  isDir := fun i hi dir => second.isDir i (first.inodes ▸ hi) (first.isDir i hi dir)
  entries := fun i hi dir n j found => second.entries i (first.inodes ▸ hi) (first.isDir i hi dir) n j (first.entries i hi dir n j found)

theorem walk (grows : Grows V D V' D') (consistent : Consistent R dirModes V D) {cs : List (List UInt8)} (hi : i < V.inodes)
    (found : walk V D i cs = some j) : Fs.walk V' D' i cs = some j := by
  induction cs generalizing i with
  | nil => exact found
  | cons name cs ih =>
      unfold Fs.walk at found ⊢
      split at found
      · next dir =>
          rw [if_pos (grows.isDir i hi dir)]
          obtain ⟨k, entry, rest⟩ := Option.bind_eq_some_iff.mp found
          rw [grows.entries i hi dir name k entry]
          exact ih (consistent.lookup_lt hi dir entry) rest
      · cases found

theorem resolve (grows : Grows V D V' D') (consistent : Consistent R dirModes V D) (found : resolve V D path = some j) :
    Fs.resolve V' D' path = some j := grows.walk consistent consistent.root found

end Grows

theorem SameNames.grows (same : SameNames V D V' D') : Grows V D V' D' where
  inodes := same.inodes
  isDir := fun i hi dir => (same.isDir i hi).trans dir
  entries := fun i hi dir n j found => by rwa [same.entries i hi dir]

theorem grows_free (free : (V.inode i).mode = 0) (inodes : V'.inodes = V.inodes) (other : ∀ j, j ≠ i → (V'.inode j).mode = (V.inode j).mode)
    (same : ∀ j, j ≠ i → D' j = D j) : Grows V D V' D' := by
  have differ : ∀ j, (V.inode j).isDir = true → j ≠ i := by
    rintro j dir rfl
    rw [Inode.isDir, free] at dir
    cases dir
  refine ⟨inodes, fun j _ dir => ?_, fun j _ dir n k found => ?_⟩
  · rw [Inode.isDir, other j (differ j dir)]
    exact dir
  · rwa [same j (differ j dir)]

theorem grows_entry (isDir : ∀ j, (V'.inode j).mode = (V.inode j).mode) (inodes : V'.inodes = V.inodes)
    (kept : ∀ n j, lookup (D p) n = some j → lookup bs n = some j) : Grows V D V' (Function.update D p bs) := by
  refine ⟨inodes, fun j _ dir => ?_, fun j _ dir n k found => ?_⟩
  · rw [Inode.isDir, isDir]
    exact dir
  · by_cases here : j = p
    · subst here
      rw [Function.update_self]
      exact kept n k found
    · rwa [Function.update_of_ne here]

theorem AddPost.grows {r : Int} (post : AddPost R V p (D p) name child r V' bs) (nonzero : child ≠ 0) (packed : ∀ rs ∈ D p, Packed rs)
    (absent : lookup (D p) name = none) : Grows V D V' (Function.update D p bs) ∧ ∀ rs ∈ bs, Packed rs := by
  have modes : ∀ j, (V'.inode j).mode = (V.inode j).mode := by
    intro j
    by_cases here : j = p
    · rw [here]
      exact post.mode
    · rw [post.frame.inode j here]
  rcases post.lookups nonzero packed absent with ⟨rfl, -⟩ | adds
  · exact ⟨grows_entry modes post.inodes fun _ _ => id, packed⟩
  · refine ⟨grows_entry modes post.inodes fun n j found => ?_, adds.packed⟩
    rw [adds.lookup]
    split
    · next same =>
        rw [same, absent] at found
        cases found
    · exact found

theorem resolve_last (length : path.length < 510) (some_ : 1 ≤ (splitParent path).2.length) (short : (splitParent path).2.length ≤ 254) :
    resolve V D path = (parentOf V D path).bind fun p => walk V D p [(splitParent path).2] := by
  have alone : ∀ l : List UInt8, 1 ≤ l.length → l.length ≤ 254 → slash ∉ l → pathComponents l = [l] := by
    intro l positive small plain
    have parts : components l = [l] := parts_eq_singleton (List.ne_nil_of_length_pos positive) plain
    rw [pathComponents_eq fun c member => ?_, parts]
    rw [parts, List.mem_singleton] at member
    rwa [member]
  have whole : path.take 509 = path := List.take_of_length_le (by omega)
  unfold splitParent at some_ short
  unfold parentOf splitParent
  rw [whole] at some_ short ⊢
  cases last : lastSlash path with
  | none =>
      rw [last] at some_ short
      dsimp only at some_ short ⊢
      have all : path.take 255 = path := by
        rw [List.length_take] at short
        exact List.take_of_length_le (by omega)
      rw [all] at some_ short ⊢
      unfold resolve
      rw [alone path some_ short (lastSlash_none last)]
      rfl
  | some k =>
      rw [last] at some_ short
      dsimp only at some_ short ⊢
      obtain ⟨split, plain⟩ := lastSlash_some last
      have all : (path.drop (k + 1)).take 255 = path.drop (k + 1) := by
        rw [List.length_take] at short
        exact List.take_of_length_le (by omega)
      rw [all] at some_ short ⊢
      conv_lhs => rw [split]
      rw [resolve_append, alone _ some_ short plain]

theorem absent_of_none (length : path.length < 510) (some_ : 1 ≤ (splitParent path).2.length) (short : (splitParent path).2.length ≤ 254)
    (none : resolve V D path = none) (parent : parentOf V D path = some p) (dir : (V.inode p).isDir = true) :
    lookup (D p) (splitParent path).2 = .none := by
  rw [resolve_last length some_ short, parent, Option.bind_some] at none
  unfold walk at none
  rw [if_pos dir] at none
  cases found : lookup (D p) (splitParent path).2 with
  | none => rfl
  | some j =>
      rw [found] at none
      cases none

/-- The volume has gained names, and its blocks are packed. -/
structure Growth (V : Vol) (D : Nat → List (List Rec)) (V' : Vol) (D' : Nat → List (List Rec)) : Prop where
  grows : Grows V D V' D'
  packed : AllPacked D'

/-- Where a call creates an entry, its parent path leads to a directory that has no entry of the name. -/
def NewAt (V : Vol) (D : Nat → List (List Rec)) (path : List UInt8) : Prop :=
  ∀ p, parentOf V D path = some p → (V.inode p).isDir = true ∧ lookup (D p) (splitParent path).2 = none

theorem mode_ne_zero {x : Inode} (dir : x.isDir = true) : x.mode ≠ 0 := by
  intro zero
  rw [Inode.isDir, zero] at dir
  cases dir

theorem CreatePost.growth {found : Option Nat} (post : CreatePost R V D path found V' D') (packed : AllPacked D) (new : NewAt V D path) :
    Growth V D V' D' := by
  cases post with
  | noParent => exact ⟨.refl V D, packed⟩
  | noInode => exact ⟨⟨rfl, fun _ _ => id, fun _ _ _ _ _ => id⟩, packed⟩
  | @noEntry p i W bs parent free first add =>
      refine ⟨grows_free free.2.2.2 add.inodes (fun j other => ?_) fun j other => Function.update_of_ne other _ _, packed.clear i⟩
      have freed : (W.freeIno i).inode j = W.inode j := (frame_freeIno W i).inode j other
      have taken : (V.allocIno (sIfreg ||| 0o644) i).inode j = V.inode j := (frame_allocIno V _ i).inode j other
      by_cases here : j = p
      · rw [freed, here, add.mode, ← here, taken]
      · rw [freed, add.frame.inode j here, taken]
  | @created p i _ bs parent free first add =>
      obtain ⟨dir, absent⟩ := new p parent
      have differ : p ≠ i := by
        rintro rfl
        exact mode_ne_zero dir free.2.2.2
      have nonzero : i ≠ 0 := Nat.pos_iff_ne_zero.mp free.1
      have before : Grows V D (V.allocIno (sIfreg ||| 0o644) i) (Function.update D i []) :=
        grows_free free.2.2.2 rfl (fun j other => congrArg Inode.mode ((frame_allocIno V _ i).inode j other))
          fun j other => Function.update_of_ne other _ _
      obtain ⟨after, packed'⟩ := add.grows nonzero (packed.clear i p) (by rwa [Function.update_of_ne differ])
      exact ⟨before.trans after, (packed.clear i).update packed'⟩

theorem MkdirPost.growth {mode : UInt16} {found : Int} (post : MkdirPost R V D path mode found V' D') (packed : AllPacked D)
    (new : NewAt V D path) : Growth V D V' D' := by
  cases post with
  | noParent => exact ⟨.refl V D, packed⟩
  | noInode => exact ⟨⟨rfl, fun _ _ => id, fun _ _ _ _ _ => id⟩, packed⟩
  | @noDot p i parent free =>
      refine ⟨grows_free free.2.2.2 rfl (fun j other => ?_) fun j other => Function.update_of_ne other _ _, packed.clear i⟩
      rw [(frame_freeIno _ i).inode j other]
      exact congrArg Inode.mode ((frame_allocIno V _ i).inode j other)
  | @noEntry p i W₁ W bs parent free first made took add =>
      refine ⟨grows_free free.2.2.2 (add.inodes.trans made.frame.inodes) (fun j other => ?_) fun j other => Function.update_of_ne other _ _,
        packed.clear i⟩
      have freed : (W.freeIno i).inode j = W.inode j := (frame_freeIno W i).inode j other
      have taken : W₁.inode j = V.inode j := (made.frame.inode j other).trans ((frame_allocIno V _ i).inode j other)
      by_cases here : j = p
      · rw [freed, here, add.mode, ← here, taken]
      · rw [freed, add.frame.inode j here, taken]
  | @made p i W₁ _ bs parent free first made took add =>
      obtain ⟨dir, absent⟩ := new p parent
      have differ : p ≠ i := by
        rintro rfl
        exact mode_ne_zero dir free.2.2.2
      have nonzero : i ≠ 0 := Nat.pos_iff_ne_zero.mp free.1
      have fresh : AllPacked (Function.update D i [newDir i p]) := packed.update fun rs member => by
        rw [List.mem_singleton.mp member]
        exact packed_newDir nonzero (Nat.pos_iff_ne_zero.mp (parentOf_pos parent))
      have before : Grows V D W₁ (Function.update D i [newDir i p]) :=
        grows_free free.2.2.2 made.frame.inodes
          (fun j other => congrArg Inode.mode ((made.frame.inode j other).trans ((frame_allocIno V _ i).inode j other)))
          fun j other => Function.update_of_ne other _ _
      obtain ⟨after, packed'⟩ := add.grows nonzero (fresh p) (by rwa [Function.update_of_ne differ])
      exact ⟨before.trans after, fresh.update packed'⟩

theorem OpenInoPost.packed {r : Int} (post : OpenInoPost R V D i flags r V' D') (packed : AllPacked D) : AllPacked D' := by
  have cut : ∀ {W E}, TruncPost R V D i flags W E → AllPacked E := by
    intro W E trunc
    cases trunc with
    | kept => exact packed
    | cut => exact packed.clear i
  cases post with
  | denied => exact packed
  | noFd _ trunc => exact cut trunc
  | opened _ trunc => exact cut trunc

/-- Calls that are admissible, remove nothing and truncate no directory; `swiftfs2_mkdir` is called on a path that leads nowhere. -/
def Growing (s : FsState Disk) (c : Call) : Prop :=
  Admissible s c ∧ match c with
  | .open_ path flags => flags &&& oTrunc ≠ 0 → ∀ i t, (pathWalk path.bytes).run s = some (some i, t) → (inodeAt s i).isDir = false
  | .mkdir path _ => ∃ t, (pathWalk path.bytes).run s = some (none, t)
  | .unlink _ => False
  | _ => True

theorem GoodName.newAt {path : CString} (rep : Rep s V) (consistent : Consistent R dirModes V D) (good : GoodName s path)
    (length : path.bytes.length < 510) (none : resolve V D path.bytes = none) : NewAt V D path.bytes := by
  obtain ⟨some_, short, p, t, run, dir⟩ := good
  intro q parent
  obtain ⟨t', run', -⟩ := run_parentWalk rep consistent path
  rw [run, parent] at run'
  obtain rfl := Option.some.inj (Prod.mk.inj (Option.some.inj run')).1
  rw [rep.inode p (consistent.parentOf_lt parent)] at dir
  exact ⟨dir, absent_of_none length some_ short none parent dir⟩

theorem CreatePost.file (post : CreatePost R V D path (some i) V' D') (dirs : ∀ p, parentOf V D path = some p → (V.inode p).isDir = true) :
    (V'.inode i).mode = sIfreg ||| 0o644 := by
  cases post with
  | @created p _ _ bs parent free first add =>
      have differ : i ≠ p := by
        rintro rfl
        exact mode_ne_zero (dirs i parent) free.2.2.2
      rw [add.frame.inode i differ]
      exact congrArg Inode.mode (inode_setInode_self _ i _)

theorem Growing.growth (rep : Rep s V) (consistent : Consistent R dirModes V D) (packed : AllPacked D) (growing : Growing s c)
    (post : Call.Post R V D r V' D' c) : Growth V D V' D' := by
  obtain ⟨admitted, growing⟩ := growing
  obtain ⟨value, bytes, entries⟩ := r
  cases c with
  | open_ path flags =>
      obtain ⟨-, post⟩ := post
      obtain ⟨walked, run, -⟩ := run_pathWalk rep consistent path
      cases post with
      | missing => exact ⟨.refl V D, packed⟩
      | notCreated none creat create =>
          rw [none] at run
          exact create.growth packed ((admitted.2 creat walked run).newAt rep consistent admitted.1 none)
      | @existing i _ _ _ found rest =>
          rw [found] at run
          refine ⟨(rest.sameNames fun _ trunc => ?_).grows, rest.packed packed⟩
          have := growing trunc i walked run
          rwa [rep.inode i (consistent.resolve_lt found)] at this
      | created none creat create rest =>
          rw [none] at run
          have new := (admitted.2 creat walked run).newAt rep consistent admitted.1 none
          obtain ⟨grows, packed'⟩ := create.growth packed new
          refine ⟨grows.trans (rest.sameNames fun _ _ => ?_).grows, rest.packed packed'⟩
          rw [Inode.isDir, create.file fun p parent => (new p parent).1]
          decide
  | read fd size =>
      obtain ⟨-, read, rfl⟩ := post
      refine ⟨?_, packed⟩
      cases read <;> exact ⟨rfl, fun _ _ => id, fun _ _ _ _ _ => id⟩
  | write fd buf =>
      obtain ⟨-, write, rfl⟩ := post
      refine ⟨⟨(write.frame consistent).inodes, fun i _ dir => ?_, fun _ _ _ _ _ => id⟩, packed⟩
      rw [Inode.isDir, write.mode i]
      exact dir
  | close fd =>
      obtain ⟨rfl, ⟨-, rfl, -⟩ | ⟨-, rfl⟩⟩ := post
      · exact ⟨.refl V' D', packed⟩
      · exact ⟨⟨rfl, fun _ _ => id, fun _ _ _ _ _ => id⟩, packed⟩
  | mkdir path mode =>
      obtain ⟨walked, run⟩ := growing
      exact post.2.growth packed (admitted.2.newAt rep consistent admitted.1 (pathWalk_run rep consistent run).symm)
  | unlink => exact growing.elim
  | ls path =>
      obtain ⟨-, rfl, rfl⟩ := post
      exact ⟨.refl V' D', packed⟩
  | sync =>
      obtain ⟨-, rfl, rfl⟩ := post
      exact ⟨⟨rfl, fun _ _ => id, fun _ _ _ _ _ => id⟩, packed⟩

/-- The volume is consistent, and its directory blocks are packed. -/
structure PackedVol (R : Nat → Prop) (s : FsState Disk) (V : Vol) (D : Nat → List (List Rec)) : Prop where
  rep : Rep s V
  consistent : Consistent R dirModes V D
  packed : AllPacked D

theorem reachBoot_grows (start : PackedVol R s V D) (reach : ReachBoot Growing s t) :
    ∃ V' D', PackedVol R t V' D' ∧ Grows V D V' D' := by
  induction reach with
  | start => exact ⟨V, D, start, .refl V D⟩
  | call before growing run ih =>
      obtain ⟨V₁, D₁, ⟨rep, consistent, packed⟩, grows⟩ := ih
      obtain ⟨V', D', rep', consistent', post⟩ := exec_post rep consistent (growing.1.safe rep consistent) run
      obtain ⟨more, packed'⟩ := growing.growth rep consistent packed post
      exact ⟨V', D', ⟨rep', consistent', packed'⟩, grows.trans more⟩
  | reboot before sync mount ih =>
      obtain ⟨V₁, D₁, ⟨rep, consistent, packed⟩, grows⟩ := ih
      exact ⟨V₁.reboot, D₁, ⟨rep.reboot sync mount, consistent.reboot, packed⟩, grows.inodes, grows.isDir, grows.entries⟩

theorem allPacked_rootDirs : AllPacked rootDirs := by
  intro i rs member
  unfold rootDirs at member
  split at member
  · rw [List.mem_singleton.mp member]
    exact packed_newDir (by decide) (by decide)
  · cases member

theorem mkfs_packed {sizeMb : Nat} {img : Disk} {heap : Nat → Bool} (one : (Geometry.ofMb sizeMb).nrGroups = 1) (made : mkfs sizeMb = some img)
    (mounted : swiftfs2Mount.run (FsState.boot img heap) = some (0, s)) :
    PackedVol (Geometry.Reserved (Geometry.ofMb sizeMb)) s (volWith false s) rootDirs := by
  obtain ⟨d, formatted⟩ := mkfs_formatted one made
  obtain ⟨booted, -⟩ := formatted.booted (by omega) mounted
  exact ⟨rep_volWith booted.layout (by simp), booted.consistent formatted (fun x => (dirModes_isDir x).mpr) false, allPacked_rootDirs⟩

section Fresh
variable {sizeMb : Nat} {img : Disk} {heap : Nat → Bool} {mode : UInt16}

theorem growing_128 : ∃ img s V, mkfs 128 = some img ∧ swiftfs2Mount.run (FsState.boot img fun _ => true) = some (0, s) ∧ Rep s V ∧ FreshVol V ∧
    Consistent (Geometry.Reserved (Geometry.ofMb 128)) dirModes V rootDirs ∧ (inodeAt s 1).indirect = 0 := by
  obtain ⟨img, s, V, made, mounted, rep, fresh, dirs⟩ := fresh_128
  obtain ⟨img', s', d, made', mounted', -, -, booted⟩ := mkfs_128
  obtain rfl := Option.some.inj (made'.symm.trans made)
  obtain rfl := (Prod.mk.inj (Option.some.inj (mounted'.symm.trans mounted))).2
  refine ⟨img', s', V, made, mounted, rep, fresh, dirs dirModes fun x => (dirModes_isDir x).mpr, ?_⟩
  rw [booted.inode 1 (by decide), if_pos rfl]
  rfl

theorem FreshVol.nowhere (fresh : FreshVol V) {name : List UInt8} (components : pathComponents path = [name])
    (absent : lookup [newDir 1 1] name = none) : resolve V rootDirs path = none := by
  have root : rootDirs 1 = [newDir 1 1] := rfl
  rw [resolve, components, walk, fresh.root, if_pos rfl, root, absent]
  rfl

theorem growing_bin (rep : Rep s V) (consistent : Consistent R dirModes V rootDirs) (fresh : FreshVol V) :
    Growing s (.mkdir binPath mode) := by
  obtain ⟨w, walked, -⟩ := run_pathWalk rep consistent binPath
  rw [fresh.nowhere (by decide : pathComponents binPath.bytes = [[0x62, 0x69, 0x6e]]) (by decide)] at walked
  refine ⟨⟨by decide, by decide, by decide, 1, s, rfl, ?_⟩, w, walked⟩
  rw [rep.inode 1 consistent.root]
  exact fresh.root

theorem growing_cache_128 : ∃ img m V, mkfs 128 = some img ∧ swiftfs2Mount.run (FsState.boot (Cache.boot img) fun _ => true) = some (0, m) ∧
    Rep (viewed m) V ∧ FreshVol V ∧ Consistent (Geometry.Reserved (Geometry.ofMb 128)) dirModes V rootDirs ∧
    Checked Growing m (.mkdir binPath 0o755) := by
  obtain ⟨img, m, V, made, mounted, rep, fresh, dirs⟩ := fresh_cache_128
  have consistent := dirs dirModes fun x => (dirModes_isDir x).mpr
  have notSync : Call.mkdir binPath 0o755 ≠ .sync := fun same => nomatch same
  exact ⟨img, m, V, made, mounted, rep, fresh, consistent, ⟨notSync, growing_bin rep consistent fresh, bin_noStale mounted rep fresh consistent⟩⟩

end Fresh

theorem Grows.parentOf (grows : Grows V D V' D') (consistent : Consistent R dirModes V D) (parent : parentOf V D path = some p) :
    Fs.parentOf V' D' path = some p := by
  unfold Fs.parentOf at parent ⊢
  split at parent
  · exact grows.resolve consistent parent
  · exact parent

theorem Grows.resolve_entry (grows : Grows V D V' D') (consistent : Consistent R dirModes V D) (length : path.length < 510)
    (some_ : 1 ≤ (splitParent path).2.length) (short : (splitParent path).2.length ≤ 254) (parent : Fs.parentOf V D path = some p)
    (dir : (V.inode p).isDir = true) (entry : lookup (D' p) (splitParent path).2 = some i) : Fs.resolve V' D' path = some i := by
  rw [resolve_last length some_ short, grows.parentOf consistent parent, Option.bind_some]
  unfold Fs.walk
  rw [if_pos (grows.isDir p (consistent.parentOf_lt parent) dir), entry]
  rfl

theorem Directory.few {x : Inode} (dir : Directory V x bs) (direct : x.indirect = 0) : bs.length ≤ 12 := by
  by_contra more
  have present := (dir.block 12 _ (List.getElem?_eq_getElem (by omega))).1
  unfold fileBlock at present
  rw [dif_neg (by decide), if_neg fun h => h.2 direct] at present
  exact present rfl

theorem isDir_dirMode (mode : UInt16) : dirMode mode &&& sIfdir ≠ 0 := by
  intro zero
  have bit := congrArg (fun m : UInt16 => m.toNat.testBit 14) zero
  simp [dirMode, sIfdir] at bit
  exact absurd (bit (.inl (by decide))) (by decide)

theorem AddPost.entry (post : AddPost R V p bs name child 0 V' bs') (nonzero : child ≠ 0) (packed : ∀ rs ∈ bs, Packed rs)
    (absent : lookup bs name = none) (few : bs.length ≤ 12) : lookup bs' name = some child := by
  rcases post.lookups nonzero packed absent with ⟨-, full⟩ | adds
  · have := full rfl
    omega
  · rw [adds.lookup, if_pos rfl]

/-- The path of an entry of the directory at a path. -/
def CString.entry (path : CString) (name : List UInt8) (nul : 0 ∉ name) : CString :=
  ⟨path.bytes ++ slash :: name, by simpa using ⟨path.nul, by decide, nul⟩⟩

theorem resolve_entry (path name : List UInt8) (components : pathComponents name = [n]) :
    resolve V D (path ++ slash :: name) = (resolve V D path).bind fun j => walk V D j [n] := by
  rw [resolve_append, components]

theorem MkdirPost.fits {mode : UInt16} {value : Int} (post : MkdirPost R V rootDirs binPath.bytes mode value V' D') (fresh : FreshVol V) :
    value = 0 := by
  have walked : parentOf V rootDirs binPath.bytes = some 1 := rfl
  have other {i : Nat} (free : V.FreeIno i) : i ≠ 1 := by
    rintro rfl
    exact mode_ne_zero fresh.root free.2.2.2
  cases post with
  | noParent parent => cases walked.symm.trans parent
  | noInode _ full => exact absurd (fresh.freeIno (i := 2) (by omega) (by omega)) (full fresh.roomy 2)
  | noDot _ _ _ out =>
      have none : V.avail = 0 := Vol.avail_eq_zero.mpr (out fresh.roomy)
      have := fresh.avail
      omega
  | @noEntry p i W _ bs parent free first made took add =>
      obtain rfl : 1 = p := Option.some.inj (walked.symm.trans parent)
      have root : rootDirs 1 = [newDir 1 1] := rfl
      rw [Function.update_of_ne (other free).symm, root] at add
      have inserted : insertDir (entryLen (splitParent binPath.bytes).2) i (splitParent binPath.bytes).2 [newDir 1 1] ≠ none := Option.some_ne_none _
      cases add with
      | full none => exact absurd none inserted
      | leak none => exact absurd none inserted
  | made => rfl

theorem PackedVol.created {w w' : FsState Disk} {path : CString} (vol : PackedVol R s V D) (growing : Growing s (.open_ path flags))
    (missing : (pathWalk path.bytes).run s = some (none, w)) (parent : (parentWalk path.bytes).run s = some (some p, w'))
    (few : (inodeAt s p).indirect = 0) (run : (Call.open_ path flags).exec.run s = some (r, u)) (success : 0 ≤ r.value) :
    ∃ i t, i ≠ 0 ∧ (inodeAt s i).mode = 0 ∧ (inodeAt u i).mode = sIfreg ||| 0o644 ∧ (inodeAt u i).size = 0 ∧
      u.fds r.value.toNat = ⟨i, 0, flags, false⟩ ∧ (pathWalk path.bytes).run u = some (some i, t) := by
  obtain ⟨rep, consistent, packed⟩ := vol
  obtain ⟨V', D', rep', consistent', post⟩ := exec_post rep consistent (growing.1.safe rep consistent) run
  have growth := growing.growth rep consistent packed post
  obtain ⟨value, bytes, entries⟩ := r
  have nowhere := (pathWalk_run rep consistent missing).symm
  obtain ⟨w₁, parent', -⟩ := run_parentWalk rep consistent path
  rw [parent] at parent'
  have up := (Prod.mk.inj (Option.some.inj parent')).1.symm
  have hp := consistent.parentOf_lt up
  rw [rep.inode p hp] at few
  have failed : ¬(0 : Int) ≤ -1 := by decide
  obtain ⟨t, walk, -⟩ := run_pathWalk rep' consistent' path
  cases post.2 with
  | missing => exact absurd success failed
  | notCreated => exact absurd success failed
  | existing found => cases nowhere.symm.trans found
  | @created i _ V₁ _ D₁ _ _ creat create rest =>
      have good := growing.1.2 creat w missing
      have new := good.newAt rep consistent growing.1.1 nowhere
      have file := create.file fun q parent => (new q parent).1
      cases create with
      | @created q _ _ bs parent₀ free first add =>
          obtain rfl : p = q := Option.some.inj (up.symm.trans parent₀)
          obtain ⟨dir, absent⟩ := new p up
          have differ : i ≠ p := by
            rintro rfl
            exact mode_ne_zero dir free.2.2.2
          have nonzero : i ≠ 0 := Nat.pos_iff_ne_zero.mp free.1
          have same : Function.update D i [] p = D p := Function.update_of_ne (Ne.symm differ) _ _
          have entry : lookup bs (splitParent path.bytes).2 = some i := by
            rw [same] at add
            exact add.entry nonzero (packed p) absent ((consistent.dirs p hp ((dirModes_isDir _).mpr dir)).few few)
          have empty : (V₁.inode i).size = 0 := by
            rw [add.frame.inode i differ]
            exact congrArg Inode.size (inode_setInode_self _ i _)
          cases rest with
          | denied => exact absurd success failed
          | noFd => exact absurd success failed
          | @opened _ W _ trunc fd lower upper unused =>
              have kept : D' p = bs ∧ (W.inode i).mode = (V₁.inode i).mode ∧ (W.inode i).size = 0 := by
                cases trunc with
                | kept => exact ⟨Function.update_self _ _ _, rfl, empty⟩
                | cut =>
                    refine ⟨?_, ?_, ?_⟩
                    · rw [Function.update_of_ne (Ne.symm differ), Function.update_self]
                    · rw [inode_setInode_self]
                      rfl
                    · rw [inode_setInode_self]
                      rfl
              rw [growth.grows.resolve_entry consistent growing.1.1 good.1 good.2.1 up dir (by rw [kept.1]; exact entry)] at walk
              have inside : i < (W.setFd fd ⟨i, 0, flags, false⟩).inodes := by rw [growth.grows.inodes]; exact free.2.1
              refine ⟨i, t, nonzero, ?_, ?_, ?_, ?_, walk⟩
              · rw [rep.inode i free.2.1]
                exact free.2.2.2
              · rw [rep'.inode i inside]
                exact kept.2.1.trans file
              · rw [rep'.inode i inside]
                exact kept.2.2
              · rw [rep'.fds]
                exact Function.update_self _ _ _

/-- The call that creates `a` on a fresh volume. -/
structure Opened (s₀ : FsState Disk) (r : Result) (u : FsState Disk) : Prop where
  growing : Growing s₀ (.open_ filePath (oCreat ||| oRdwr))
  missing : ∃ w, (pathWalk filePath.bytes).run s₀ = some (none, w)
  parent : (parentWalk filePath.bytes).run s₀ = some (some 1, s₀)
  few : (inodeAt s₀ 1).indirect = 0
  run : (Call.open_ filePath (oCreat ||| oRdwr)).exec.run s₀ = some (r, u)
  success : 0 ≤ r.value
  upper : r.value.toNat < 64

end SwiftBSD.Proof.Fs
