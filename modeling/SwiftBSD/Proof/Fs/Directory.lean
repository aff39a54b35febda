import SwiftBSD.Proof.Fs.FileIO
import SwiftBSD.Proof.Fs.Records

namespace SwiftBSD.Proof.Fs
open Lib SwiftBSD.Fs

variable {R : Nat → Prop} {T T' : Nat → Prop} {V V' V'' : Vol} {i : Nat} {x x' : Inode} {bs : List (List Rec)}

structure Frame (T : Nat → Prop) (V V' : Vol) : Prop where
  groups : V'.groups = V.groups
  roomy : V'.roomy = V.roomy
  inode : ∀ j, ¬ T j → V'.inode j = V.inode j
  blocks : ∀ j < V.inodes, ¬ T j → ∀ k, slot V.data (V.inode j) k ≠ 0 →
    V'.data (slot V.data (V.inode j) k) = V.data (slot V.data (V.inode j) k)

namespace Frame

theorem refl (T : Nat → Prop) (V : Vol) : Frame T V V := ⟨rfl, rfl, fun _ _ => rfl, fun _ _ _ _ _ => rfl⟩

theorem inodes (frame : Frame T V V') : V'.inodes = V.inodes := by rw [Vol.inodes, frame.groups, Vol.inodes]

theorem slot_eq (frame : Frame T V V') {j : Nat} (hj : j < V.inodes) (out : ¬ T j) :
    slot V'.data (V'.inode j) = slot V.data (V.inode j) := by
  rw [frame.inode j out]
  refine slot_congr fun table => ?_
  have := frame.blocks j hj out 1036
  rw [slot_table] at this
  exact this fun zero => table (uint32_eq_zero.mp zero)

theorem trans (first : Frame T V V') (second : Frame T V' V'') : Frame T V V'' where
  groups := second.groups.trans first.groups
  roomy := second.roomy.trans first.roomy
  inode := fun j out => (second.inode j out).trans (first.inode j out)
  blocks := by
    intro j hj out k nonzero
    have := second.blocks j (first.inodes ▸ hj) out k
    rw [first.slot_eq hj out] at this
    rw [this nonzero, first.blocks j hj out k nonzero]

theorem mono (frame : Frame T V V') (less : ∀ j, T j → T' j) : Frame T' V V' :=
  ⟨frame.groups, frame.roomy, fun j out => frame.inode j fun h => out (less j h),
    fun j hj out => frame.blocks j hj fun h => out (less j h)⟩

theorem byteAt_eq (frame : Frame T V V') {j : Nat} (hj : j < V.inodes) (out : ¬ T j) :
    byteAt V'.data (V'.inode j) = byteAt V.data (V.inode j) := by
  have slots := frame.slot_eq hj out
  rw [frame.inode j out] at slots ⊢
  exact byteAt_congr slots (frame.blocks j hj out)

end Frame

theorem Extends.frame_setInode (ext : Extends V (V.inode i) V' x') (own : Own R V) (hi : i < V.inodes) (y : Inode) :
    Frame (· = i) V (V'.setInode i y) where
  groups := ext.groups
  roomy := by rw [Vol.setInode, ext.frame]
  inode := by
    intro j other
    simp only [Vol.setInode, Function.update_of_ne other, ext.inode]
  blocks := by
    intro j hj other
    have own' : Own R (V.setInode i (V.inode i)) := by rwa [setInode_self]
    exact (ext.other_slot own' hi hj other).2

structure Directory (V : Vol) (x : Inode) (bs : List (List Rec)) : Prop where
  count : bs.length ≤ 13
  block : ∀ k rs, bs[k]? = some rs →
    fileBlock V.data x k ≠ 0 ∧ Chain (V.data (fileBlock V.data x k)) 0 4096 rs
  last : ∀ k, bs.length ≤ k → fileBlock V.data x k = 0
  table : x.indirect ≠ 0 → bs.length = 13
  inode : ∀ rs ∈ bs, ∀ r ∈ rs, r.ino < V.inodes

theorem fileBlock_ne_slot {data : Nat → Block} {k : Nat} (h : fileBlock data x k ≠ 0) :
    slot data x k = fileBlock data x k := slot_of_lt (lt_of_fileBlock_ne h)

theorem Directory.unique (dir : Directory V x bs) {cs : List (List Rec)} (dir' : Directory V x cs) : bs = cs := by
  have length : bs.length = cs.length := by
    apply Nat.le_antisymm
    · by_contra less
      exact (dir.block cs.length _ (List.getElem?_eq_getElem (by omega))).1 (dir'.last _ (Nat.le_refl _))
    · by_contra less
      exact (dir'.block bs.length _ (List.getElem?_eq_getElem (by omega))).1 (dir.last _ (Nat.le_refl _))
  apply List.ext_getElem length
  intro k hk hk'
  exact (dir.block k _ (List.getElem?_eq_getElem hk)).2.unique (dir'.block k _ (List.getElem?_eq_getElem hk')).2

theorem Directory.congr (dir : Directory V x bs) (inodes : V'.inodes = V.inodes)
    (blocks : ∀ l, fileBlock V'.data x' l = fileBlock V.data x l) (table : x'.indirect = x.indirect)
    (data : ∀ l, fileBlock V.data x l ≠ 0 → V'.data (fileBlock V.data x l) = V.data (fileBlock V.data x l)) :
    Directory V' x' bs where
  count := dir.count
  block := by
    intro k rs h
    obtain ⟨nonzero, chain⟩ := dir.block k rs h
    rw [blocks, data k nonzero]
    exact ⟨nonzero, chain⟩
  last := fun k h => (blocks k).trans (dir.last k h)
  table := fun h => dir.table (table ▸ h)
  inode := fun rs hrs r hr => inodes ▸ dir.inode rs hrs r hr

theorem Directory.frame (frame : Frame T V V') (hi : i < V.inodes) (out : ¬ T i)
    (dir : Directory V (V.inode i) bs) : Directory V' (V'.inode i) bs := by
  refine dir.congr frame.inodes (fun l => ?_) (by rw [frame.inode i out]) (fun l nonzero => ?_)
  · rw [fileBlock_eq_slot, fileBlock_eq_slot, frame.slot_eq hi out]
  · have eq := fileBlock_ne_slot nonzero
    rw [← eq] at nonzero ⊢
    exact frame.blocks i hi out l nonzero

theorem directory_empty {x : Inode} (direct : ∀ k, x.direct k = 0) (indirect : x.indirect = 0) :
    Directory V x [] where
  count := by simp
  block := by simp
  last := by
    intro k _
    unfold fileBlock
    split
    · rw [direct]
      rfl
    · exact if_neg fun h => h.2 indirect
  table := fun h => (h indirect).elim
  inode := by simp

theorem Directory.setBlock (dir : Directory V (V.inode i) bs) (own : Own R V) (hi : i < V.inodes) {k : Nat}
    {rs rs' : List Rec} {c : Block} (hk : bs[k]? = some rs) (chain : Chain c 0 4096 rs')
    (bound : ∀ r ∈ rs', r.ino < V.inodes) :
    Own R (V.setData (fileBlock V.data (V.inode i) k) c) ∧
      Frame (· = i) V (V.setData (fileBlock V.data (V.inode i) k) c) ∧
      Directory (V.setData (fileBlock V.data (V.inode i) k) c) (V.inode i) (bs.set k rs') := by
  have hlen : k < bs.length := (List.getElem?_eq_some_iff.mp hk).1
  obtain ⟨present, -⟩ := dir.block k rs hk
  have small := lt_of_fileBlock_ne present
  have value : V.slots (i, k) = fileBlock V.data (V.inode i) k := by
    rw [slots_of_lt hi, slot_of_lt small]
  have table := own.not_table small (by rw [value]; exact present)
  rw [value] at table
  have blocks (l : Nat) : fileBlock (V.setData (fileBlock V.data (V.inode i) k) c).data (V.inode i) l =
      fileBlock V.data (V.inode i) l :=
    fileBlock_congr (fun _ => Function.update_of_ne (table i hi) _ _) l
  have distinct {j l : Nat} (hj : j < V.inodes) (other : (j, l) ≠ (i, k)) (nonzero : slot V.data (V.inode j) l ≠ 0) :
      slot V.data (V.inode j) l ≠ fileBlock V.data (V.inode i) k := by
    intro same
    rw [← slots_of_lt hj] at nonzero same
    exact other (own.owns.unique _ _ nonzero (by rw [same, value]))
  refine ⟨own.setData c table, ⟨rfl, rfl, fun _ _ => rfl, ?_⟩, ?_⟩
  · intro j hj other l nonzero
    exact Function.update_of_ne (distinct hj (fun same => other (Prod.mk.inj same).1) nonzero) _ _
  · refine ⟨by rw [List.length_set]; exact dir.count, ?_, ?_, ?_, ?_⟩
    · intro l rs'' h
      rw [blocks]
      by_cases same : l = k
      · subst same
        rw [List.getElem?_set_self (by omega)] at h
        cases h
        refine ⟨present, ?_⟩
        simpa [Vol.setData] using chain
      · rw [List.getElem?_set_ne (fun h => same h.symm)] at h
        obtain ⟨nonzero, chain⟩ := dir.block l rs'' h
        refine ⟨nonzero, ?_⟩
        rw [Vol.setData]
        dsimp only
        rw [Function.update_of_ne]
        · exact chain
        · have eq := fileBlock_ne_slot nonzero
          rw [← eq] at nonzero ⊢
          exact distinct hi (fun h => same (Prod.mk.inj h).2) nonzero
    · intro l h
      rw [blocks]
      exact dir.last l (by rwa [List.length_set] at h)
    · intro h
      rw [List.length_set]
      exact dir.table h
    · intro rs'' h r hr
      rcases List.mem_or_eq_of_mem_set h with old | rfl
      · exact dir.inode rs'' old r hr
      · exact bound r hr

/-- The pointers of an inode stay clear of the metadata. -/
def Inside (V : Vol) (x : Inode) : Prop := ∀ k, slot V.data x k ≠ 0 → ¬ Meta V.groups (slot V.data x k)

theorem Own.inside (own : Own R V) (hi : i < V.inodes) : Inside V (V.inode i) := by
  intro k nonzero
  rw [← slots_of_lt hi] at nonzero ⊢
  exact own.not_meta nonzero

theorem Inside.table (inside : Inside V x) (table : x.indirect ≠ 0) : ¬ Meta V.groups x.indirect.toNat := by
  have := inside 1036
  rw [slot_table] at this
  exact this fun zero => table (uint32_eq_zero.mp zero)

theorem Inside.block (inside : Inside V x) {k : Nat} (present : fileBlock V.data x k ≠ 0) :
    ¬ Meta V.groups (fileBlock V.data x k) := by
  have := inside k
  rw [fileBlock_ne_slot present] at this
  exact this present

theorem Directory.search {α : Type} {body E : Nat → FsM Disk (Option α)} {B : Nat → UInt32 → FsM Disk (Option α)}
    {Q : Option α → Vol → Prop} (P : Nat → Prop) (dir : Directory V x bs) (inside : Inside V x)
    (eq : ∀ k, body k = bmapRead x k false >>= fun p => if p.1 = 0 then E k else B k p.1) (start : P 0)
    (step : ∀ k rs, bs[k]? = some rs → P k →
      Runs Rep (B k (.ofNat (fileBlock V.data x k))) V fun r V' =>
        match r with
        | some a => Q (some a) V'
        | none => V' = V ∧ P (k + 1))
    (finish : P bs.length → Runs Rep (E bs.length) V fun r V' => ∃ a, r = some a ∧ Q (some a) V') :
    Runs Rep (searchM body 0 1037) V Q := by
  have count := dir.count
  refine Runs.search (fun k W => W = V ∧ k ≤ bs.length ∧ P k) ⟨rfl, Nat.zero_le _, start⟩ ?_ ?_
  · rintro k V - hk ⟨rfl, le, before⟩
    rw [eq]
    refine .bind (runs_bmapRead k inside.table) ?_
    rintro _ V ⟨rfl, rfl⟩
    dsimp only
    rcases Nat.lt_or_eq_of_le le with less | rfl
    · have present := dir.block k _ (List.getElem?_eq_getElem less)
      rw [if_neg (ofNat_fileBlock_eq_zero.not.mpr present.1)]
      refine (step k _ (List.getElem?_eq_getElem less) before).mono ?_
      intro r V' h
      cases r with
      | some a => exact h
      | none => exact ⟨h.1, less, h.2⟩
    · rw [if_pos (ofNat_fileBlock_eq_zero.mpr (dir.last _ (Nat.le_refl _)))]
      refine (finish before).mono ?_
      rintro r V' ⟨a, rfl, h⟩
      exact h
  · rintro _ ⟨-, le, -⟩
    omega

def seen (bs : List (List Rec)) : List Rec := bs.flatMap visible

def lookup (bs : List (List Rec)) (name : List UInt8) : Option Nat := ((seen bs).find? (·.name = name)).map Rec.ino

theorem seen_take_succ {k : Nat} {rs : List Rec} (h : bs[k]? = some rs) :
    seen (bs.take (k + 1)) = seen (bs.take k) ++ visible rs := by
  rw [List.take_add_one, h]
  simp [seen]

theorem seen_split {k : Nat} {rs : List Rec} (h : bs[k]? = some rs) :
    seen bs = seen (bs.take k) ++ (visible rs ++ seen (bs.drop (k + 1))) := by
  rw [← List.append_assoc, ← seen_take_succ h]
  unfold seen
  rw [← List.flatMap_append, List.take_append_drop]

/-- The body of the loop of `dir_lookup`, at a block that is there. -/
def lookupBlock {σ : Type} [BlockStore σ] (name : List UInt8) (p : UInt32) : FsM σ (Option (Option Nat)) := do
  let b ← load (← cacheGet p.toNat)
  match lookupFrom b name 4096 0 with
  | none => failure
  | some none => return none
  | some (some ino) => return some (some ino)

theorem runs_dirLookup (dir : Directory V x bs) (inside : Inside V x) {name : List UInt8} (nul : 0 ∉ name)
    (short : name.length ≤ 254) :
    Runs Rep (dirLookup x name) V fun r V' => r = lookup bs name ∧ V' = V := by
  unfold dirLookup
  refine .bind (P := fun r V' => r.getD none = lookup bs name ∧ V' = V) ?_ fun r V' h => .pure h
  refine dir.search (fun k => (seen (bs.take k)).find? (·.name = name) = none) inside
    (E := fun _ => pure (some none)) (B := fun _ p => lookupBlock name p) (fun _ => rfl) (by simp [seen]) ?_ ?_
  · intro k rs hk before
    obtain ⟨present, chain⟩ := dir.block k rs hk
    have short' := chain.le
    refine .bind (runs_cacheGet _) ?_
    rintro _ V ⟨rfl, rfl⟩
    rw [toNat_ofNat_fileBlock]
    refine .bind (runs_load (inside.block present)) ?_
    rintro _ V ⟨rfl, rfl⟩
    rw [lookupFrom_eq nul short chain (by omega)]
    cases found : (visible rs).find? (·.name = name) with
    | none =>
        refine .pure ⟨rfl, ?_⟩
        rw [seen_take_succ hk, List.find?_append, before, found]
        rfl
    | some r =>
        refine .pure ⟨?_, rfl⟩
        rw [lookup, seen_split hk, List.find?_append, before, List.find?_append, found]
        rfl
  · intro before
    refine .pure ⟨none, rfl, ?_, rfl⟩
    rw [List.take_length] at before
    rw [lookup, before]
    rfl

/-- The first free record that is long enough is used. -/
def insertRec (reclen ino : Nat) (name : List UInt8) : List Rec → Option (List Rec)
  | [] => none
  | r :: rs =>
      if r.takes reclen then some (r.use reclen ino name ++ rs)
      else (insertRec reclen ino name rs).map (r :: ·)

/-- The first block on which `f` succeeds is changed. -/
def updateFirst {α : Type} (f : α → Option α) : List α → Option (List α)
  | [] => none
  | a :: as => match f a with
      | some a' => some (a' :: as)
      | none => (updateFirst f as).map (a :: ·)

theorem updateFirst_none {α : Type} {f : α → Option α} {as : List α} (h : ∀ a ∈ as, f a = none) :
    updateFirst f as = none := by
  induction as with
  | nil => rfl
  | cons a as ih =>
      rw [updateFirst, h a (by simp)]
      dsimp only
      rw [ih fun q hq => h q (by simp [hq])]
      rfl

theorem updateFirst_set {α : Type} {f : α → Option α} {as : List α} {k : Nat} {a a' : α} (hk : as[k]? = some a)
    (before : ∀ q ∈ as.take k, f q = none) (found : f a = some a') : updateFirst f as = some (as.set k a') := by
  induction as generalizing k with
  | nil => simp at hk
  | cons q as ih =>
      cases k with
      | zero =>
          obtain rfl : q = a := by simpa using hk
          rw [updateFirst, found]
          rfl
      | succ k =>
          rw [updateFirst, before q (by simp)]
          dsimp only
          rw [ih (by simpa using hk) fun p hp => before p (by simp [hp])]
          rfl

/-- The first block with a free record that is long enough is used. -/
def insertDir (reclen ino : Nat) (name : List UInt8) : List (List Rec) → Option (List (List Rec)) :=
  updateFirst (insertRec reclen ino name)

def entryLen (name : List UInt8) : Nat := (8 + name.length + 3) / 4 * 4

section Insert
variable {reclen ino : Nat} {name : List UInt8}

theorem insertRec_none {rs : List Rec} (h : ∀ r ∈ rs, r.takes reclen = false) :
    insertRec reclen ino name rs = none := by
  induction rs with
  | nil => rfl
  | cons r rs ih =>
      rw [insertRec, h r (by simp), if_neg (by simp), ih fun q hq => h q (by simp [hq])]
      rfl

theorem insertRec_append {before after : List Rec} {r : Rec} (h : ∀ q ∈ before, q.takes reclen = false)
    (takes : r.takes reclen = true) :
    insertRec reclen ino name (before ++ r :: after) = some (before ++ (r.use reclen ino name ++ after)) := by
  induction before with
  | nil => rw [List.nil_append, insertRec, if_pos takes, List.nil_append]
  | cons q before ih =>
      rw [List.cons_append, insertRec, h q (by simp), if_neg (by simp), ih fun p hp => h p (by simp [hp])]
      rfl

theorem ino_mem_use {r q : Rec} (h : q ∈ r.use reclen ino name) : q.ino = ino ∨ q.ino = 0 := by
  unfold Rec.use at h
  split at h
  · simp only [List.mem_cons, List.not_mem_nil, or_false] at h
    rcases h with rfl | rfl
    · exact .inl rfl
    · exact .inr rfl
  · simp only [List.mem_cons, List.not_mem_nil, or_false] at h
    rw [h]
    exact .inl rfl

end Insert

/-- The first visible record with the name becomes free. -/
def removeRec (name : List UInt8) : List Rec → Option (List Rec)
  | [] => none
  | r :: rs =>
      if !r.live then none
      else if r.name = name then some (.free r.len :: rs)
      else (removeRec name rs).map (r :: ·)

def removeDir (name : List UInt8) : List (List Rec) → Option (List (List Rec)) := updateFirst (removeRec name)

theorem removeRec_none {name : List UInt8} {rs : List Rec} (h : ∀ r ∈ visible rs, r.name ≠ name) :
    removeRec name rs = none := by
  induction rs with
  | nil => rfl
  | cons r rs ih =>
      rw [removeRec]
      by_cases live : r.live = true
      · have seen : visible (r :: rs) = r :: visible rs := by simp [visible, live]
        rw [seen] at h
        rw [if_neg (by simp [live]), if_neg (h r (by simp)), ih fun q hq => h q (by simp [hq])]
        rfl
      · rw [if_pos (by simpa using live)]

theorem removeRec_append {name : List UInt8} {before after : List Rec} {r : Rec}
    (h : ∀ q ∈ before, q.live = true ∧ q.name ≠ name) (live : r.live = true) (same : r.name = name) :
    removeRec name (before ++ r :: after) = some (before ++ (.free r.len :: after)) := by
  induction before with
  | nil => rw [List.nil_append, removeRec, if_neg (by simp [live]), if_pos same, List.nil_append]
  | cons q before ih =>
      obtain ⟨hlive, hname⟩ := h q (by simp)
      rw [List.cons_append, removeRec, if_neg (by simp [hlive]), if_neg hname, ih fun p hp => h p (by simp [hp])]
      rfl

end SwiftBSD.Proof.Fs
