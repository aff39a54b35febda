import SwiftBSD.Proof.Fs.EntryNames

namespace SwiftBSD.Proof.Fs
open Lib SwiftBSD.Fs

variable {b b' : Block} {pos mid stop p ino reclen : Nat} {es es' : List Entry} {rs : List Rec} {name : List UInt8} {fileType : UInt8}

def entriesFrom (b : Block) : Nat → Nat → List Entry
  | 0, _ => []
  | n + 1, pos => if 4096 ≤ pos then [] else entryAt b pos :: entriesFrom b n (pos + Dirent.recLen b pos)

def entries (b : Block) : List Entry := entriesFrom b 512 0

/-- Following `rec_len` from offset 0 reaches exactly 4096, every `rec_len` is a multiple of 4 and at least 8, and live names fit. -/
structure WellFormedBlock (b : Block) : Prop where
  tiled : Tiled b 0 4096 (entries b)
  aligned : ∀ e ∈ entries b, e.len % 4 = 0

/-- The records in use, with their offsets, inodes, types and names. -/
def liveEntries (b : Block) : List Entry := (entries b).filter fun e => e.live

theorem Tiled.entriesFrom_eq {n : Nat} (tiled : Tiled b pos 4096 es) (fuel : es.length ≤ n) : entriesFrom b n pos = es := by
  induction n generalizing pos es with
  | zero =>
      cases tiled with
      | nil => rfl
      | cons => simp at fuel
  | succ n ih =>
      cases tiled with
      | nil => rfl
      | cons large room rest =>
          have inside := rest.le
          rw [entriesFrom, if_neg (by omega), show Dirent.recLen b pos = (recordAt b pos).len from rfl, ih rest (by simpa using fuel)]

theorem Tiled.entries_eq (tiled : Tiled b 0 4096 es) : entries b = es := by
  have count := tiled.le
  exact tiled.entriesFrom_eq (by omega)

theorem Tiled.wellFormedBlock (tiled : Tiled b 0 4096 es) (aligned : ∀ e ∈ es, e.len % 4 = 0) : WellFormedBlock b := by
  constructor
  · rw [tiled.entries_eq]
    exact tiled
  · rw [tiled.entries_eq]
    exact aligned

theorem Chain.wellFormedBlock (chain : Chain b 0 4096 rs) (aligned : ∀ r ∈ rs, r.len % 4 = 0) : WellFormedBlock b := by
  obtain ⟨es, tiled, rfl⟩ := chain.tiled
  exact tiled.wellFormedBlock fun e member => aligned _ (List.mem_map_of_mem member)

theorem Tiled.append (first : Tiled b pos mid es) (second : Tiled b mid stop es') : Tiled b pos stop (es ++ es') := by
  induction first with
  | nil => exact second
  | cons large room rest ih => exact .cons large room (ih second)

theorem entryAt_congr (same : ∀ k, pos ≤ k → k < pos + (recordAt b pos).len → b'.get k = b.get k) (large : 8 ≤ (recordAt b pos).len)
    (room : (recordAt b pos).ino ≠ 0 → 8 + (recordAt b pos).name.length ≤ (recordAt b pos).len) : entryAt b' pos = entryAt b pos := by
  have record : recordAt b' pos = recordAt b pos := by
    refine recordAt_congr large same fun live => ?_
    rw [← recordAt_nameLen live]
    exact room live
  have type : Dirent.fileType b' pos = Dirent.fileType b pos := same _ (by omega) (by omega)
  rw [entryAt, entryAt, record, type]

theorem Tiled.congr (tiled : Tiled b pos stop es) (same : ∀ k, pos ≤ k → k < stop → b'.get k = b.get k) : Tiled b' pos stop es := by
  induction tiled with
  | nil => exact .nil _
  | @cons pos stop es large room rest ih =>
      have inside := rest.le
      have here := entryAt_congr (fun k lower upper => same k lower (by omega)) large room
      have record : recordAt b' pos = recordAt b pos := congrArg Entry.toRec here
      rw [← here]
      refine .cons (by rwa [record]) (by rwa [record]) ?_
      rw [record]
      exact ih fun k lower upper => same k (by omega) upper

/-- The records before and after a stretch that is rewritten. -/
structure Rewritten (b b' : Block) (old new : List Entry) : Prop where
  split : ∃ before after, entries b = before ++ (old ++ after) ∧ entries b' = before ++ (new ++ after)
  tiled : Tiled b' 0 4096 (entries b')

theorem rewritten {r : Rec} {before after : List Rec} {new : List Entry} (start : Chain b 0 p before) (here : recordAt b p = r)
    (fits : r.Fits) (rest : Chain b (p + r.len) 4096 after) (changed : Tiled b' p (p + r.len) new)
    (same : ∀ k, k < p ∨ p + r.len ≤ k → b'.get k = b.get k) : Rewritten b b' [entryAt b p] new := by
  obtain ⟨es, first, -⟩ := start.tiled
  obtain ⟨es', last, -⟩ := rest.tiled
  subst here
  have old : Tiled b p (p + (recordAt b p).len) [entryAt b p] := .cons fits.1 (fun live => (fits.2 live).2) (.nil _)
  have whole := first.append (old.append last)
  have whole' := (first.congr fun k _ upper => same k (.inl upper)).append
    (changed.append (last.congr fun k lower _ => same k (.inr lower)))
  refine ⟨⟨es, es', whole.entries_eq, whole'.entries_eq⟩, ?_⟩
  rw [whole'.entries_eq]
  exact whole'

namespace Rewritten
variable {old new : List Entry}

theorem wellFormedBlock (change : Rewritten b b' old new) (wf : WellFormedBlock b) (aligned : ∀ e ∈ new, e.len % 4 = 0) :
    WellFormedBlock b' := by
  obtain ⟨⟨before, after, was, is⟩, tiled⟩ := change
  refine ⟨tiled, fun e member => ?_⟩
  rw [is] at member
  rcases List.mem_append.mp member with member | member
  · exact wf.aligned e (by rw [was]; simp [member])
  rcases List.mem_append.mp member with member | member
  · exact aligned e member
  · exact wf.aligned e (by rw [was]; simp [member])

theorem live (change : Rewritten b b' old new) : ∃ before after,
    liveEntries b = before ++ (old.filter (fun e => e.live) ++ after) ∧ liveEntries b' = before ++ (new.filter (fun e => e.live) ++ after) := by
  obtain ⟨⟨before, after, was, is⟩, -⟩ := change
  refine ⟨before.filter fun e => e.live, after.filter fun e => e.live, ?_, ?_⟩
  · rw [liveEntries, was, List.filter_append, List.filter_append]
  · rw [liveEntries, is, List.filter_append, List.filter_append]

end Rewritten

/-- One live record is added, and every other live record stays as it is. -/
def Inserted (b b' : Block) (name : List UInt8) (ino : Nat) (fileType : UInt8) : Prop :=
  ∃ before e after, liveEntries b = before ++ after ∧ liveEntries b' = before ++ e :: after ∧
    e.name = name ∧ e.ino = ino ∧ e.fileType = fileType

/-- One live record is taken out, and every other live record stays as it is. -/
def Removed (b b' : Block) (name : List UInt8) : Prop :=
  ∃ before e after, liveEntries b = before ++ e :: after ∧ liveEntries b' = before ++ after ∧ e.name = name

theorem entryLen_aligned (name : List UInt8) : entryLen name % 4 = 0 := by
  unfold entryLen
  omega

theorem fileType_fill (inside : p + 8 ≤ 4096) : Dirent.fileType (Dirent.fill p ino fileType name b) p = fileType := by
  unfold Dirent.fileType Dirent.fill
  rw [Bytes.get_write, if_pos (by simp only [List.length_cons]; omega), show p + 7 - (p + 6) = 1 by omega]
  rfl

theorem fileType_useSlot (inside : p + 8 ≤ 4096) (large : 8 ≤ reclen) :
    Dirent.fileType (useSlot p reclen ino fileType name b) p = fileType := by
  refine Eq.trans ?_ (@fileType_fill b p ino name fileType inside)
  unfold useSlot Dirent.fileType
  dsimp only
  split
  · rw [get_setRecLen (by omega), get_setRecLen (by omega), get_setInode (by omega)]
  · rw [get_setRecLen (by omega)]

theorem fileType_firstRecord (large : 8 ≤ reclen) : Dirent.fileType (firstRecord reclen ino fileType name b) 0 = fileType := by
  refine Eq.trans ?_ (@fileType_fill b 0 ino name fileType (by decide))
  unfold firstRecord Dirent.fileType
  dsimp only
  split
  · rw [get_setRecLen (by omega), get_setInode (by omega), get_setRecLen (by omega)]
  · rw [get_setRecLen (by omega)]

theorem filter_live_new {r : Rec} (tiled : Tiled b p stop es) (same : es.map Entry.toRec = r :: rs) (live : r.live = true)
    (free : ∀ q ∈ rs, q.live = false) : es.filter (fun e => e.live) = [entryAt b p] ∧ recordAt b p = r := by
  cases tiled with
  | nil => cases same
  | @cons _ _ es large room rest =>
      rw [List.map_cons] at same
      obtain ⟨here, rfl⟩ := List.cons.inj same
      rw [entryAt_toRec] at here
      refine ⟨?_, here⟩
      have first : (entryAt b p).live = true := by
        rw [entryAt_toRec, here]
        exact live
      rw [List.filter_cons_of_pos (p := fun e : Entry => e.live) first]
      refine congrArg _ (List.filter_eq_nil_iff.mpr fun e member => ?_)
      rw [free _ (List.mem_map_of_mem member)]
      decide

theorem use_cons (r : Rec) (aligned : r.len % 4 = 0) (step : reclen % 4 = 0) : ∃ len rest,
    r.use reclen ino name = ⟨len, ino, name⟩ :: rest ∧ (∀ q ∈ rest, q.live = false) ∧
      ∀ q ∈ r.use reclen ino name, q.len % 4 = 0 := by
  unfold Rec.use
  split
  · refine ⟨_, _, rfl, by simp [Rec.live, Rec.free], ?_⟩
    simp only [List.mem_cons, List.not_mem_nil, or_false, forall_eq_or_imp, forall_eq, Rec.free]
    omega
  · exact ⟨_, _, rfl, by simp, by simpa using aligned⟩

theorem useSlot_inserted (chain : Chain b 0 4096 rs) (wf : WellFormedBlock b) (scan : slotFrom b (entryLen name) 4096 0 = some (some p))
    (short : name.length ≤ 254) (small : ino < 2 ^ 32) (positive : 0 < ino) :
    WellFormedBlock (useSlot p (entryLen name) ino fileType name b) ∧
      Inserted b (useSlot p (entryLen name) ino fileType name b) name ino fileType := by
  have count := chain.le
  have header := length_le_entryLen name
  rcases @slotFrom_eq _ _ _ (entryLen name) 4096 chain (by omega) with ⟨none, -⟩ | ⟨q, front, r, back, found, rfl, -, takes, start, here, rest⟩
  · rw [scan] at none
    cases none
  obtain rfl : p = q := by simpa using scan.symm.trans found
  obtain ⟨free, large⟩ : r.ino = 0 ∧ entryLen name ≤ r.len := by simpa [Rec.takes] using takes
  have inside := rest.le
  obtain ⟨used, same⟩ := @chain_useSlot _ _ _ _ _ fileType _ here header large (by omega) short small (Nat.pos_iff_ne_zero.mp positive)
  obtain ⟨new, tiled, records⟩ := used.tiled
  have change := rewritten start here ⟨by omega, fun live => (live free).elim⟩ rest tiled same
  have aligned : r.len % 4 = 0 := by
    obtain ⟨⟨before, after, was, -⟩, -⟩ := change
    have := wf.aligned (entryAt b p) (by rw [was]; simp)
    rwa [entryAt_toRec, here] at this
  obtain ⟨len, left, eq, unused, steps⟩ := @use_cons ino _ name r aligned (entryLen_aligned name)
  rw [eq] at records
  obtain ⟨added, record⟩ := filter_live_new tiled records (by simpa [Rec.live] using Nat.pos_iff_ne_zero.mp positive) unused
  refine ⟨change.wellFormedBlock wf fun e member => steps _ ?_, ?_⟩
  · rw [eq, ← records]
    exact List.mem_map_of_mem member
  · obtain ⟨before, after, was, is⟩ := change.live
    have gone : (entryAt b p).live = false := by
      rw [entryAt_toRec, here, Rec.live, free]
      rfl
    rw [List.filter_cons_of_neg (p := fun e : Entry => e.live) (by simp [gone]), List.filter_nil, List.nil_append] at was
    rw [added] at is
    refine ⟨before, entryAt (useSlot p (entryLen name) ino fileType name b) p, after, was, is, ?_, ?_, fileType_useSlot (by omega) (by omega)⟩
    · rw [entryAt_toRec, record]
    · rw [entryAt_toRec, record]

theorem firstRecord_inserted (v : Block) (short : name.length ≤ 254) (small : ino < 2 ^ 32) (positive : 0 < ino) :
    WellFormedBlock (firstRecord (entryLen name) ino fileType name v) ∧
      ∃ e, liveEntries (firstRecord (entryLen name) ino fileType name v) = [e] ∧ e.name = name ∧ e.ino = ino ∧ e.fileType = fileType := by
  have header := length_le_entryLen name
  have large := entryLen_le short
  have step := entryLen_aligned name
  obtain ⟨es, tiled, records⟩ := (@chain_firstRecord v _ ino fileType _ header (by omega) short small (Nat.pos_iff_ne_zero.mp positive)).tiled
  obtain ⟨added, record⟩ := filter_live_new tiled records (by simpa [Rec.live] using Nat.pos_iff_ne_zero.mp positive)
    (by simp [Rec.live, Rec.free])
  refine ⟨tiled.wellFormedBlock fun e member => ?_, entryAt (firstRecord (entryLen name) ino fileType name v) 0,
    ?_, ?_, ?_, fileType_firstRecord (Nat.le_trans (Nat.le_add_right ..) header)⟩
  · have := List.mem_map_of_mem (f := Entry.toRec) member
    rw [records] at this
    simp only [List.mem_cons, List.not_mem_nil, or_false] at this
    rcases this with eq | eq
    · rw [eq]
      exact step
    · rw [eq, Rec.free]
      dsimp only
      omega
  · rw [liveEntries, tiled.entries_eq, added]
  · rw [entryAt_toRec, record]
  · rw [entryAt_toRec, record]

theorem setInode_removed (chain : Chain b 0 4096 rs) (wf : WellFormedBlock b) (nul : 0 ∉ name) (short : name.length ≤ 254)
    (scan : removeFrom b name 4096 0 = some (some p)) :
    WellFormedBlock (Dirent.setInode p 0 b) ∧ Removed b (Dirent.setInode p 0 b) name := by
  have count := chain.le
  rcases removeFrom_eq nul short chain (by omega : rs.length < 4096) with
    ⟨none, -⟩ | ⟨q, front, r, back, found, rfl, -, live, hname, start, here, fits, rest⟩
  · rw [scan] at none
    cases none
  obtain rfl : p = q := by simpa using scan.symm.trans found
  have inside := rest.le
  obtain ⟨cleared, same⟩ := chain_clear here fits.1 (by omega)
  obtain ⟨new, tiled, records⟩ := cleared.tiled
  have change := rewritten start here fits rest tiled same
  have record (e : Entry) (member : e ∈ new) : e.toRec = .free r.len := by
    have := List.mem_map_of_mem (f := Entry.toRec) member
    rw [records] at this
    simpa using this
  obtain ⟨before, after, was, is⟩ := change.live
  constructor
  · refine change.wellFormedBlock wf fun e member => ?_
    rw [record e member]
    obtain ⟨⟨before, after, was, -⟩, -⟩ := change
    have := wf.aligned (entryAt b p) (by rw [was]; simp)
    rwa [entryAt_toRec, here] at this
  · have here' : (entryAt b p).live = true := by
      rw [entryAt_toRec, here]
      exact live
    rw [List.filter_cons_of_pos (p := fun e : Entry => e.live) here', List.filter_nil] at was
    rw [List.filter_eq_nil_iff.mpr fun e member => by simp [record e member, Rec.live, Rec.free], List.nil_append] at is
    refine ⟨before, entryAt b p, after, was, is, ?_⟩
    rw [entryAt_toRec, here]
    exact hname

inductive DirEdit
  | make (mode : UInt16)
  | add (dir : Nat) (name : List UInt8) (child : Nat) (fileType : UInt8)
  | remove (dir : Nat) (name : List UInt8)

variable {s t u s₀ : FsState Disk} {e : DirEdit} {r : Int} {V V' : Vol} {D : Nat → List (List Rec)} {R : Nat → Prop} {i k c : Nat}
  {T : Nat → Prop}

def IsDir (s : FsState Disk) (i : Nat) : Prop := i < 4096 * s.nrGroups ∧ (inodeAt s i).isDir = true

def dirBlock (s : FsState Disk) (i k : Nat) : Nat := fileBlock s.dev.block (inodeAt s i) k

namespace DirEdit

/-- `make` is the new inode of `swiftfs2_mkdir`, `remove` the removal of the entry in `swiftfs2_unlink`. -/
def run {σ : Type} [BlockStore σ] : DirEdit → FsM σ Int
  | make mode => do return (← inodeAlloc (sIfdir ||| (mode &&& 0o777)))
  | add dir name child fileType => dirAddEntry dir name child fileType
  | remove dir name => do
      let x ← inodeRead dir
      return if ← removeEntry x name then 0 else -1

/-- Names of 1 to 254 bytes go to directories, for inodes that exist; names to remove are the ends of paths. -/
def Ok (s : FsState Disk) : DirEdit → Prop
  | make _ => True
  | add dir name child _ => IsDir s dir ∧ 1 ≤ name.length ∧ name.length ≤ 254 ∧ 0 < child ∧ child < 4096 * s.nrGroups
  | remove dir name => IsDir s dir ∧ 0 ∉ name ∧ name.length ≤ 254

end DirEdit

def Taken (s : FsState Disk) (b : Nat) : Prop := ¬ Meta s.nrGroups b ∧ b < 32768 * s.nrGroups ∧ usedAt s b = true

/-- Blocks that were given to inodes stay theirs, and only those in `T` may change. -/
def Untouched (T : Nat → Prop) (s t : FsState Disk) : Prop :=
  ∀ b, Taken s b → Taken t b ∧ (¬ T b → t.dev.block b = s.dev.block b)

/-- What an edit does to the blocks: an insertion goes to one block, which is or becomes a block of the directory. -/
def DirEdit.Effect (s t : FsState Disk) (r : Int) : DirEdit → Prop
  | make _ => Untouched (fun _ => False) s t
  | add dir name child fileType => (r = -1 ∧ Untouched (fun _ => False) s t) ∨ (r = 0 ∧ ∃ b, b ≠ 0 ∧ Untouched (· = b) s t ∧
      WellFormedBlock (t.dev.block b) ∧
      ((∃ k, dirBlock s dir k = b ∧ Inserted (s.dev.block b) (t.dev.block b) name child fileType) ∨
        (¬ Taken s b ∧ Taken t b ∧
          (∃ e, liveEntries (t.dev.block b) = [e] ∧ e.name = name ∧ e.ino = child ∧ e.fileType = fileType) ∧
          ∃ k, dirBlock t dir k = b)))
  | remove dir name => (r = -1 ∧ Untouched (fun _ => False) s t) ∨ (r = 0 ∧ ∃ k, dirBlock s dir k ≠ 0 ∧
      Untouched (· = dirBlock s dir k) s t ∧ WellFormedBlock (t.dev.block (dirBlock s dir k)) ∧
      Removed (s.dev.block (dirBlock s dir k)) (t.dev.block (dirBlock s dir k)) name)

def BlocksOut (s : FsState Disk) : Prop := ∀ g < s.nrGroups, GroupFull s g

/-- There is a free record for the name, or a place among the first 13 blocks for a new one, or nothing to make a block of. -/
def DirEdit.Fits (s : FsState Disk) : DirEdit → Prop
  | add dir name _ _ =>
      (∃ k, dirBlock s dir k ≠ 0 ∧ ∃ e ∈ entries (s.dev.block (dirBlock s dir k)), e.ino = 0 ∧ entryLen name ≤ e.len) ∨
        (∃ k < 13, dirBlock s dir k = 0) ∨ BlocksOut s
  | _ => True

/-- The states that sequences of edits lead to. -/
inductive EditRun {σ : Type} [BlockStore σ] (ok : FsState σ → DirEdit → Prop) (s : FsState σ) : FsState σ → Prop
  | start : EditRun ok s s
  | edit {t u : FsState σ} {e : DirEdit} {r : Int} (before : EditRun ok s t) (okay : ok t e) (ran : e.run.run t = some (r, u)) : EditRun ok s u

/-- All records have lengths that are multiples of 4. -/
def Aligned (bs : List (List Rec)) : Prop := ∀ rs ∈ bs, ∀ r ∈ rs, r.len % 4 = 0

theorem updateFirst_all {α : Type} {P : α → Prop} {f : α → Option α} {as as' : List α} (step : ∀ a a', f a = some a' → P a → P a')
    (found : updateFirst f as = some as') (all : ∀ a ∈ as, P a) : ∀ a ∈ as', P a := by
  induction as generalizing as' with
  | nil => cases found
  | cons a as ih =>
      rw [updateFirst] at found
      cases here : f a with
      | some a' =>
          rw [here] at found
          obtain rfl : a' :: as = as' := by simpa using found
          intro q member
          rcases List.mem_cons.mp member with rfl | member
          · exact step a q here (all a List.mem_cons_self)
          · exact all q (List.mem_cons_of_mem _ member)
      | none =>
          rw [here] at found
          obtain ⟨bs, later, rfl⟩ := Option.map_eq_some_iff.mp found
          intro q member
          rcases List.mem_cons.mp member with rfl | member
          · exact all q List.mem_cons_self
          · exact ih later (fun a member => all a (List.mem_cons_of_mem _ member)) q member

theorem insertRec_aligned {rs rs' : List Rec} (found : insertRec (entryLen name) ino name rs = some rs') (all : ∀ r ∈ rs, r.len % 4 = 0) :
    ∀ r ∈ rs', r.len % 4 = 0 := by
  induction rs generalizing rs' with
  | nil => cases found
  | cons r rs ih =>
      have here := all r List.mem_cons_self
      have later (q : Rec) (member : q ∈ rs) := all q (List.mem_cons_of_mem _ member)
      rw [insertRec] at found
      split at found
      · obtain rfl := Option.some.inj found
        obtain ⟨-, -, -, -, steps⟩ := @use_cons ino _ name r here (entryLen_aligned name)
        intro q member
        rcases List.mem_append.mp member with member | member
        · exact steps q member
        · exact later q member
      · obtain ⟨bs, rest, rfl⟩ := Option.map_eq_some_iff.mp found
        intro q member
        rcases List.mem_cons.mp member with rfl | member
        · exact here
        · exact ih rest later q member

theorem removeRec_aligned {rs rs' : List Rec} (found : removeRec name rs = some rs') (all : ∀ r ∈ rs, r.len % 4 = 0) :
    ∀ r ∈ rs', r.len % 4 = 0 := by
  induction rs generalizing rs' with
  | nil => cases found
  | cons r rs ih =>
      have here := all r List.mem_cons_self
      have later (q : Rec) (member : q ∈ rs) := all q (List.mem_cons_of_mem _ member)
      rw [removeRec] at found
      split at found
      · cases found
      split at found
      · obtain rfl := Option.some.inj found
        intro q member
        rcases List.mem_cons.mp member with rfl | member
        · exact here
        · exact later q member
      · obtain ⟨bs, rest, rfl⟩ := Option.map_eq_some_iff.mp found
        intro q member
        rcases List.mem_cons.mp member with rfl | member
        · exact here
        · exact ih rest later q member

theorem AddPost.aligned {bs bs' : List (List Rec)} (post : AddPost R V i bs name ino r V' bs') (all : Aligned bs) : Aligned bs' := by
  cases post with
  | fit found => exact updateFirst_all (fun _ _ => insertRec_aligned) found all
  | full => exact all
  | leak => exact all
  | grow =>
      intro rs member
      rcases List.mem_append.mp member with member | member
      · exact all rs member
      · obtain rfl := List.mem_singleton.mp member
        simp only [newBlock, List.mem_cons, List.not_mem_nil, or_false, forall_eq_or_imp, forall_eq, Rec.free]
        have := entryLen_aligned name
        omega
  | lost => exact all

theorem RemovePost.aligned {bs bs' : List (List Rec)} {done : Bool} (post : RemovePost R V i bs name done V' bs') (all : Aligned bs) :
    Aligned bs' := by
  cases post with
  | absent => exact all
  | removed found => exact updateFirst_all (fun _ _ => removeRec_aligned) found all

theorem Aligned.update {bs : List (List Rec)} (all : ∀ j, Aligned (D j)) (here : Aligned bs) (j : Nat) : Aligned (Function.update D i bs j) := by
  rw [Function.update_apply]
  split
  · exact here
  · exact all j

section Shown
variable (rep : Rep s V)
include rep

theorem Rep.taken : Taken s c ↔ ¬ Meta V.groups c ∧ V.Used c := by
  unfold Taken Vol.Used Vol.blocks
  rw [rep.groups]
  constructor
  · rintro ⟨outside, bound, used⟩
    exact ⟨outside, bound, (rep.used c bound).symm.trans used⟩
  · rintro ⟨outside, bound, used⟩
    exact ⟨outside, bound, (rep.used c bound).trans used⟩

theorem Rep.untouched (rep' : Rep t V') (groups : V'.groups = V.groups)
    (keep : ∀ c, V.Used c → V'.Used c ∧ (¬ T c → V'.data c = V.data c)) : Untouched T s t := by
  intro c taken
  obtain ⟨outside, used⟩ := rep.taken.mp taken
  obtain ⟨used', same⟩ := keep c used
  have outside' : ¬ Meta V'.groups c := by rwa [groups]
  refine ⟨rep'.taken.mpr ⟨outside', used'⟩, fun other => ?_⟩
  rw [rep'.data c outside', rep.data c outside, same other]

theorem Rep.isDir (isDir : IsDir s i) : i < V.inodes ∧ (V.inode i).isDir = true := by
  have bound : i < V.inodes := by
    unfold Vol.inodes
    rw [← rep.groups]
    exact isDir.1
  refine ⟨bound, ?_⟩
  rw [← rep.inode i bound]
  exact isDir.2

theorem Rep.dirBlock (own : Own R V) (bound : i < V.inodes) (k : Nat) : dirBlock s i k = Fs.fileBlock V.data (V.inode i) k := by
  unfold Fs.dirBlock
  rw [rep.inode i bound, rep.fileBlock own bound]

end Shown

theorem BlocksOut.avail (out : BlocksOut s) (rep : Rep s V) : V.avail = 0 := by
  refine Vol.avail_eq_zero.mpr fun b hb => ?_
  have group : b / 32768 < V.groups := by
    unfold Vol.blocks at hb
    omega
  rcases out _ (by rwa [rep.groups]) with count | full
  · exact .inl (by rwa [← rep.groupFreeBlocks _ group])
  · exact .inr ((rep.used b hb).symm.trans (full _ (Nat.mod_lt _ (by decide))))

theorem Rep.edited_block (rep : Rep s V) (rep' : Rep t V') {b : Nat} {v : Block} (outside : ¬ Meta V.groups b)
    (same : V' = { V with data := V'.data }) (written : V'.data = Function.update V.data b v) :
    Untouched (· = b) s t ∧ s.dev.block b = V.data b ∧ t.dev.block b = v := by
  have groups : V'.groups = V.groups := by rw [same]
  refine ⟨rep.untouched rep' groups fun c used => ⟨?_, fun other => ?_⟩, rep.data b outside, ?_⟩
  · rw [same]
    exact used
  · rw [written, Function.update_of_ne other]
  · rw [rep'.data b (by rwa [groups]), written, Function.update_self]

theorem updateFirst_isNone {α : Type} {f : α → Option α} {as : List α} (none : updateFirst f as = none) : ∀ a ∈ as, f a = .none := by
  induction as with
  | nil =>
      intro a member
      cases member
  | cons a as ih =>
      rw [updateFirst] at none
      split at none
      · cases none
      · next here =>
          rw [Option.map_eq_none_iff] at none
          intro b member
          rcases List.mem_cons.mp member with rfl | member
          · exact here
          · exact ih none b member

theorem insertRec_isNone (none : insertRec reclen ino name rs = none) : ∀ r ∈ rs, r.takes reclen = false := by
  induction rs with
  | nil =>
      intro r member
      cases member
  | cons r rs ih =>
      rw [insertRec] at none
      split at none
      · cases none
      · next takes =>
          rw [Option.map_eq_none_iff] at none
          intro q member
          rcases List.mem_cons.mp member with rfl | member
          · exact Bool.eq_false_iff.mpr takes
          · exact ih none q member

theorem Directory.no_room {x : Inode} {bs : List (List Rec)} {e : Entry} (directory : Directory V x bs)
    (none : insertDir (entryLen name) ino name bs = none) (present : fileBlock V.data x k ≠ 0)
    (member : e ∈ entries (V.data (fileBlock V.data x k))) (free : e.ino = 0) (large : entryLen name ≤ e.len) : False := by
  have inside : k < bs.length := by
    by_contra beyond
    exact present (directory.last k (by omega))
  obtain ⟨-, chain⟩ := directory.block k _ (List.getElem?_eq_getElem inside)
  obtain ⟨es, tiled, same⟩ := chain.tiled
  rw [tiled.entries_eq] at member
  have record : e.toRec ∈ bs[k] := by
    rw [← same]
    exact List.mem_map_of_mem member
  have takes := insertRec_isNone (updateFirst_isNone none _ (List.getElem_mem inside)) _ record
  simp [Rec.takes, free, large] at takes

section Step
variable (rep : Rep s V) (consistent : Consistent R dirModes V D) (aligned : ∀ j, Aligned (D j))
include rep consistent aligned

/-- The next state is again a consistent volume with aligned records. -/
def AlignedVolume (R : Nat → Prop) (t : FsState Disk) : Prop := ∃ V D, Rep t V ∧ Consistent R dirModes V D ∧ ∀ j, Aligned (D j)

theorem step_make (mode : UInt16) : ∃ r t, (DirEdit.make mode).run.run s = some (r, t) ∧ AlignedVolume R t ∧ (DirEdit.make mode).Effect s t r := by
  obtain ⟨i, t, V', run, rep', post⟩ := runs_inodeAlloc (sIfdir ||| (mode &&& 0o777)) s rep
  refine ⟨i, t, by rw [DirEdit.run, run_bind_some run]; rfl, ?_⟩
  cases post with
  | none => exact ⟨⟨_, D, rep', consistent.refresh, aligned⟩, rep.untouched rep' rfl fun c used => ⟨used, fun _ => rfl⟩⟩
  | some =>
      refine ⟨⟨_, _, rep', consistent.allocIno _ i, Aligned.update aligned ?_⟩, rep.untouched rep' rfl fun c used => ⟨used, fun _ => rfl⟩⟩
      intro rs member
      cases member

theorem step_add {dir child : Nat} (ok : (DirEdit.add dir name child fileType).Ok s) :
    ∃ r t, (DirEdit.add dir name child fileType).run.run s = some (r, t) ∧ AlignedVolume R t ∧
      ((DirEdit.add dir name child fileType).Fits s → (DirEdit.add dir name child fileType).Effect s t r) := by
  obtain ⟨isDir, -, short, positive, bound⟩ := ok
  obtain ⟨hi, isDir'⟩ := rep.isDir isDir
  have own := consistent.own
  have directory := consistent.dirs dir hi (consistent.isDir _ isDir')
  have child' : child < V.inodes := by
    unfold Vol.inodes
    rw [← rep.groups]
    exact bound
  have small : child < 2 ^ 32 := by
    have := consistent.bound
    unfold Vol.inodes at child'
    omega
  obtain ⟨r, t, V', run, rep', ⟨bs', post⟩, added⟩ :=
    @runs_dirAddEntry_data _ _ _ _ _ _ fileType directory own hi consistent.bound short positive child' s rep
  have consistent' := post.consistent consistent
  refine ⟨r, t, run, ⟨V', _, rep', consistent', Aligned.update aligned (post.aligned (aligned dir))⟩, ?_⟩
  have groups := post.frame.groups
  intro fits
  cases added with
  | none keep => exact .inl ⟨rfl, rep.untouched rep' groups fun c used => ⟨(keep c used).1, fun _ => (keep c used).2⟩⟩
  | @slot V' k p rs block scan same written =>
      obtain ⟨present, chain⟩ := directory.block k rs block
      have outside := (own.inside hi).block present
      have wf := chain.wellFormedBlock (aligned dir rs (List.mem_of_getElem? block))
      obtain ⟨frame, old, new⟩ := rep.edited_block rep' outside same written
      obtain ⟨wf', inserted⟩ := @useSlot_inserted _ _ _ _ _ fileType chain wf scan short small positive
      refine .inr ⟨rfl, _, present, frame, ?_, .inl ⟨k, rep.dirBlock own hi k, ?_⟩⟩
      · rw [new]
        exact wf'
      · rw [old, new]
        exact inserted
  | @first V' b v fresh taken outside written keep linked =>
      have nonzero := not_meta_zero_lt outside
      have outside' : ¬ Meta V'.groups b := by rwa [groups]
      obtain ⟨wf, e, live, fields⟩ := @firstRecord_inserted _ _ fileType v short small positive
      have new := (rep'.data b outside').trans written
      refine .inr ⟨rfl, b, Nat.pos_iff_ne_zero.mp nonzero, ?_, ?_, .inr ⟨?_, ?_, ⟨e, ?_, fields⟩, ?_⟩⟩
      · exact rep.untouched rep' groups fun c used => ⟨(keep c used).1, fun _ => (keep c used).2⟩
      · rw [new]
        exact wf
      · exact fun was => fresh (rep.taken.mp was).2
      · exact rep'.taken.mpr ⟨outside', taken⟩
      · rw [new]
        exact live
      · refine ⟨(D dir).length, ?_⟩
        rw [rep'.dirBlock consistent'.own (by rwa [post.inodes])]
        refine linked ?_
        cases post with
        | fit _ _ data =>
            rw [data] at taken
            exact (fresh taken).elim
        | grow _ length => exact length
        | lost none length _ _ took =>
            rcases fits with ⟨k, present, e, member, free, large⟩ | ⟨k, less, absent⟩ | out
            · rw [rep.dirBlock own hi] at present member
              rw [rep.data _ ((own.inside hi).block present)] at member
              exact (directory.no_room none present member free large).elim
            · rw [rep.dirBlock own hi] at absent
              exact ((directory.block k _ (List.getElem?_eq_getElem (by omega))).1 absent).elim
            · have := out.avail rep
              omega

theorem step_remove {dir : Nat} (ok : (DirEdit.remove dir name).Ok s) :
    ∃ r t, (DirEdit.remove dir name).run.run s = some (r, t) ∧ AlignedVolume R t ∧ (DirEdit.remove dir name).Effect s t r := by
  obtain ⟨isDir, nul, short⟩ := ok
  obtain ⟨hi, isDir'⟩ := rep.isDir isDir
  have own := consistent.own
  have directory := consistent.dirs dir hi (consistent.isDir _ isDir')
  obtain ⟨done, t, V', run, rep', ⟨bs', post⟩, cleared⟩ := runs_removeEntry_data directory own hi nul short s rep
  refine ⟨if done then 0 else -1, t, ?_, ?_, ?_⟩
  · rw [DirEdit.run, run_bind_some (run_inodeRead rep hi), run_bind_some run]
    rfl
  · refine ⟨V', Function.update D dir bs', rep', ?_, Aligned.update aligned (post.aligned (aligned dir))⟩
    cases post with
    | absent =>
        rw [Function.update_eq_self]
        exact consistent
    | removed _ edited => exact consistent.edit edited
  · cases cleared with
    | none => exact .inl ⟨rfl, rep.untouched rep' rfl fun c used => ⟨used, fun _ => rfl⟩⟩
    | @slot V' k p rs block scan same written =>
        obtain ⟨present, chain⟩ := directory.block k rs block
        have outside := (own.inside hi).block present
        have wf := chain.wellFormedBlock (aligned dir rs (List.mem_of_getElem? block))
        obtain ⟨frame, old, new⟩ := rep.edited_block rep' outside same written
        obtain ⟨wf', removed⟩ := setInode_removed chain wf nul short scan
        refine .inr ⟨rfl, k, ?_⟩
        rw [rep.dirBlock own hi, old, new]
        exact ⟨present, frame, wf', removed⟩

theorem step_edit (e : DirEdit) (ok : e.Ok s) : ∃ r t, e.run.run s = some (r, t) ∧ AlignedVolume R t ∧ (e.Fits s → e.Effect s t r) := by
  cases e with
  | make mode =>
      obtain ⟨r, t, run, kept, effect⟩ := step_make rep consistent aligned mode
      exact ⟨r, t, run, kept, fun _ => effect⟩
  | add dir name child fileType => exact step_add rep consistent aligned ok
  | remove dir name =>
      obtain ⟨r, t, run, kept, effect⟩ := step_remove rep consistent aligned ok
      exact ⟨r, t, run, kept, fun _ => effect⟩

end Step

theorem Untouched.wellFormed {b : Nat} (frame : Untouched T s t) (edited : ∀ b, T b → WellFormedBlock (t.dev.block b)) (taken : Taken s b)
    (wf : WellFormedBlock (s.dev.block b)) : Taken t b ∧ WellFormedBlock (t.dev.block b) := by
  obtain ⟨taken', same⟩ := frame b taken
  refine ⟨taken', ?_⟩
  by_cases touched : T b
  · exact edited b touched
  · rw [same touched]
    exact wf

theorem DirEdit.Effect.wellFormed {b : Nat} (effect : e.Effect s t r) (taken : Taken s b) (wf : WellFormedBlock (s.dev.block b)) :
    Taken t b ∧ WellFormedBlock (t.dev.block b) := by
  cases e with
  | make mode => exact Untouched.wellFormed effect (fun _ => False.elim) taken wf
  | add dir name child fileType =>
      rcases effect with ⟨-, frame⟩ | ⟨-, c, -, frame, wf', -⟩
      · exact frame.wellFormed (fun _ => False.elim) taken wf
      · exact frame.wellFormed (fun b same => by rwa [same]) taken wf
  | remove dir name =>
      rcases effect with ⟨-, frame⟩ | ⟨-, k, -, frame, wf', -⟩
      · exact frame.wellFormed (fun _ => False.elim) taken wf
      · exact frame.wellFormed (fun b same => by rwa [same]) taken wf

def Fitting (s : FsState Disk) (e : DirEdit) : Prop := e.Ok s ∧ e.Fits s

theorem EditRun.kept {ok : FsState Disk → DirEdit → Prop} (sub : ∀ s e, ok s e → e.Ok s) (run : EditRun ok s t) (kept : AlignedVolume R s) :
    AlignedVolume R t := by
  induction run with
  | start => exact kept
  | @edit t u e r before okay ran ih =>
      obtain ⟨V, D, rep, consistent, aligned⟩ := ih
      obtain ⟨r', u', ran', kept', -⟩ := step_edit rep consistent aligned e (sub t e okay)
      obtain ⟨-, rfl⟩ := Prod.mk.inj (Option.some.inj (ran.symm.trans ran'))
      exact kept'

theorem EditRun.wellFormed {b : Nat} (run : EditRun Fitting s t) (kept : AlignedVolume R s) (taken : Taken s b)
    (wf : WellFormedBlock (s.dev.block b)) : Taken t b ∧ WellFormedBlock (t.dev.block b) := by
  induction run with
  | start => exact ⟨taken, wf⟩
  | @edit t u e r before okay ran ih =>
      obtain ⟨V, D, rep, consistent, aligned⟩ := before.kept (fun _ _ => And.left) kept
      obtain ⟨r', u', ran', -, effect⟩ := step_edit rep consistent aligned e okay.1
      obtain ⟨-, rfl⟩ := Prod.mk.inj (Option.some.inj (ran.symm.trans ran'))
      exact (effect okay.2).wellFormed ih.1 ih.2

theorem StoreSim.Steady.alike_edit {σ τ : Type} [BlockStore σ] [BlockStore τ] {loaded : Prop} {sim : StoreSim σ τ loaded} (steady : sim.Steady)
    (e : DirEdit) : Alike loaded sim.Dev (e.run : FsM σ Int) e.run := by
  cases e with
  | make mode => exact .bind (sim.alike_inodeAlloc _) fun _ => alike_pure _
  | add dir name child fileType => exact steady.alike_dirAddEntry _ _ _ _
  | remove dir name => exact .bind (sim.alike_inodeRead _) fun _ => .bind (sim.alike_removeEntry _ _) fun _ => alike_pure _

/-- The edit uses no pointer into the cache after its slot has gone to another block. -/
def DirEdit.NoStale (s : FsState Cache) (e : DirEdit) : Prop := ∃ r p, e.run.run (FsState.onto s (Pinned.mk s.dev)) = some (r, p)

def Editable (s : FsState Cache) (e : DirEdit) : Prop := Fitting (viewed s) e ∧ e.NoStale s

section Editable
variable {L : Nat → Block} {a b : FsState Cache}

theorem DirEdit.NoStale.viewed (noStale : e.NoStale a) (stands : Stands a.dev L) (run : e.run.run a = some (r, b)) :
    (∃ M, Stands b.dev M) ∧ e.run.run (viewed a) = some (r, viewed b) := by
  obtain ⟨r', p, checked⟩ := noStale
  exact checked_viewed (steady_pinnedOverCache.alike_edit e) (steady_pinnedOverDisk.alike_edit e) checked stands run

theorem DirEdit.NoStale.run (noStale : e.NoStale a) : ∃ r b, e.run.run a = some (r, b) := by
  obtain ⟨r, p, checked⟩ := noStale
  exact ⟨r, checked_run (steady_pinnedOverCache.alike_edit e) checked⟩

theorem EditRun.viewed (stands : Stands a.dev L) (run : EditRun Editable a b) :
    (∃ M, Stands b.dev M) ∧ EditRun Fitting (viewed a) (viewed b) := by
  induction run with
  | start => exact ⟨⟨L, stands⟩, .start⟩
  | edit before okay ran ih =>
      obtain ⟨⟨M, stands'⟩, run'⟩ := ih
      obtain ⟨after, ran'⟩ := okay.2.viewed stands' ran
      exact ⟨after, .edit run' okay.1 ran'⟩

end Editable

theorem updateFirst_length {α : Type} {f : α → Option α} {as as' : List α} (found : updateFirst f as = some as') : as'.length = as.length := by
  induction as generalizing as' with
  | nil => cases found
  | cons a as ih =>
      rw [updateFirst] at found
      split at found
      · obtain rfl := Option.some.inj found
        rfl
      · obtain ⟨rest, later, rfl⟩ := Option.map_eq_some_iff.mp found
        rw [List.length_cons, List.length_cons, ih later]

def longName : List UInt8 := List.replicate 254 0x61

theorem longName_length : longName.length = 254 := List.length_replicate

def fill : DirEdit := .add 1 longName 2 fileTypeReg

theorem lost_not_effect {bs : List (List Rec)} (rep : Rep s V) (consistent : Consistent R dirModes V D) (hi : 1 < V.inodes) (rep' : Rep t V')
    (consistent' : Consistent R dirModes V' (Function.update D 1 bs)) (inodes : V'.inodes = V.inodes) (groups : V'.groups = V.groups)
    (took : V.avail = V'.avail + 1) (blocks : ∀ l, fileBlock V'.data (V'.inode 1) l = fileBlock V.data (V.inode 1) l)
    (added : Added V 1 (D 1) longName 2 fileTypeReg 0 V') : ¬ fill.Effect s t 0 := by
  have own := consistent.own
  have same (k : Nat) : dirBlock t 1 k = dirBlock s 1 k := by
    rw [rep'.dirBlock consistent'.own (by rwa [inodes]), blocks, rep.dirBlock own hi]
  rintro (⟨impossible, -⟩ | ⟨-, b, nonzero, -, -, ⟨k, here, inserted⟩ | ⟨fresh, -, -, k, here⟩⟩)
  · cases impossible
  · rw [rep.dirBlock own hi] at here
    have present : fileBlock V.data (V.inode 1) k ≠ 0 := by rwa [here]
    have outside := (own.inside hi).block present
    rw [here] at outside
    have kept : t.dev.block b = s.dev.block b := by
      cases added with
      | slot _ _ data =>
          have : V.avail = V'.avail := by rw [data]; exact Vol.avail_congr rfl rfl rfl
          omega
      | first _ _ _ _ keep =>
          rw [rep'.data b (by rwa [groups]), rep.data b outside]
          refine (keep b ?_).2
          rw [← here]
          exact own.fileBlock_used hi present
    obtain ⟨before, e, after, was, is, -⟩ := inserted
    rw [kept, was] at is
    have := congrArg List.length is
    simp at this
  · rw [same, rep.dirBlock own hi] at here
    have present : fileBlock V.data (V.inode 1) k ≠ 0 := by rwa [here]
    refine fresh (rep.taken.mpr ⟨?_, ?_⟩)
    · rw [← here]
      exact (own.inside hi).block present
    · rw [← here]
      exact own.fileBlock_used hi present

/-- The root directory of a volume with blocks to spare holds `n` names. -/
structure Holding (R : Nat → Prop) (s : FsState Disk) (V : Vol) (D : Nat → List (List Rec)) (n : Nat) : Prop where
  rep : Rep s V
  consistent : Consistent R dirModes V D
  roomy : V.roomy = true
  inodes : V.inodes = 4096
  dir : (V.inode 1).isDir = true
  avail : 2000 ≤ V.avail + 2 * (D 1).length
  names : n ≤ (liveNames (D 1)).length

theorem Holding.ok {n : Nat} (holding : Holding R s V D n) : fill.Ok s := by
  have groups : s.nrGroups = 1 := by
    have inodes := holding.inodes
    unfold Vol.inodes at inodes
    rw [holding.rep.groups]
    omega
  have long := longName_length
  refine ⟨⟨by omega, ?_⟩, by omega, by omega, by decide, by omega⟩
  rw [holding.rep.inode 1 holding.consistent.root]
  exact holding.dir

theorem Holding.next {n : Nat} (holding : Holding R s V D n) : ∃ r t, fill.run.run s = some (r, t) ∧
    (fill.Effect s t r → ∃ V' D', Holding R t V' D' (n + 1)) := by
  obtain ⟨rep, consistent, roomy, inodes, dir, avail, names⟩ := holding
  have hi := consistent.root
  have directory := consistent.dirs 1 hi ((dirModes_isDir _).mpr dir)
  have count := directory.count
  obtain ⟨r, t, V', run, rep', ⟨bs, post⟩, added⟩ := @runs_dirAddEntry_data _ _ 1 2 _ longName fileTypeReg directory consistent.own hi
    consistent.bound (Nat.le_of_eq longName_length) (by decide) (by rw [inodes]; decide) s rep
  refine ⟨r, t, run, fun effect => ?_⟩
  have consistent' := post.consistent consistent
  have perm := post.liveNames (by decide : 2 ≠ 0)
  have step (edited : Edited R 1 V V' bs) (avail' : 2000 ≤ V'.avail + 2 * bs.length) (new : bs ≠ D 1) :
      ∃ V' D', Holding R t V' D' (n + 1) := by
    refine ⟨V', _, rep', consistent', edited.frame.roomy.trans roomy, edited.frame.inodes.trans inodes, ?_, ?_, ?_⟩
    · rw [Inode.isDir, edited.mode]
      exact dir
    · rw [Function.update_self]
      exact avail'
    · rw [Function.update_self, (perm.resolve_left new).length_eq, List.length_cons]
      omega
  cases post with
  | full _ out =>
      have none : V.avail = 0 := Vol.avail_eq_zero.mpr (out roomy)
      omega
  | leak _ _ _ _ _ _ _ _ _ _ out =>
      have := out roomy
      omega
  | @fit _ bs found edited data =>
      have length := updateFirst_length found
      have same : V'.avail = V.avail := by
        rw [data]
        exact Vol.avail_congr rfl rfl rfl
      refine step edited (by omega) ?_
      rintro rfl
      have longer := (liveNames_insert (by decide : 2 ≠ 0) found).length_eq
      simp at longer
  | grow _ _ edited _ took =>
      refine step edited ?_ ?_
      · rw [List.length_append, List.length_singleton]
        split at took
        · omega
        · omega
      · intro same
        have := congrArg List.length same
        simp at this
  | lost _ _ edited _ took blocks =>
      exact (lost_not_effect rep consistent hi rep' consistent' edited.frame.inodes edited.frame.groups took blocks added effect).elim

end SwiftBSD.Proof.Fs
