import SwiftBSD.Proof.Fs.Codec
import SwiftBSD.Fs.Swiftfs2

namespace SwiftBSD.Proof.Fs
open Lib SwiftBSD.Fs

structure Rec where
  len : Nat
  ino : Nat
  name : List UInt8
deriving DecidableEq

namespace Rec

def live (r : Rec) : Bool := r.ino != 0

def free (len : Nat) : Rec := ⟨len, 0, []⟩

/-- A record has room for its header and its name. -/
def Fits (r : Rec) : Prop := 8 ≤ r.len ∧ (r.ino ≠ 0 → r.name.length ≤ 254 ∧ 8 + r.name.length ≤ r.len)

end Rec

/-- The record at a position; the name of a free record is left over from earlier use and does not count. -/
def recordAt (b : Block) (pos : Nat) : Rec :=
  ⟨Dirent.recLen b pos, Dirent.inode b pos, if Dirent.inode b pos = 0 then [] else Dirent.name b pos⟩

/-- The bytes of `b` from `pos` to `stop` are the records of a list. -/
inductive Chain (b : Block) : Nat → Nat → List Rec → Prop
  | nil (pos : Nat) : Chain b pos pos []
  | cons {pos stop : Nat} {r : Rec} {rs : List Rec} (here : recordAt b pos = r) (fits : r.Fits)
      (rest : Chain b (pos + r.len) stop rs) : Chain b pos stop (r :: rs)

variable {b b' : Block} {pos stop mid : Nat} {r : Rec} {rs ys : List Rec} {name : List UInt8}

namespace Chain

theorem le (chain : Chain b pos stop rs) : pos + 8 * rs.length ≤ stop := by
  induction chain with
  | nil => simp
  | cons here fits rest ih =>
      have := fits.1
      rw [List.length_cons]
      omega

theorem append (first : Chain b pos mid rs) (second : Chain b mid stop ys) : Chain b pos stop (rs ++ ys) := by
  induction first with
  | nil => exact second
  | cons here fits rest ih => exact .cons here fits (ih second)

theorem split (chain : Chain b pos stop (rs ++ ys)) : ∃ mid, Chain b pos mid rs ∧ Chain b mid stop ys := by
  induction rs generalizing pos with
  | nil => exact ⟨pos, .nil pos, chain⟩
  | cons r rs ih =>
      cases chain with
      | cons here fits rest =>
          obtain ⟨mid, first, second⟩ := ih rest
          exact ⟨mid, .cons here fits first, second⟩

theorem unique (first : Chain b pos stop rs) (second : Chain b pos stop ys) : rs = ys := by
  induction first generalizing ys with
  | nil pos =>
      cases second with
      | nil => rfl
      | cons here fits rest =>
          have := rest.le
          have := fits.1
          omega
  | cons here fits rest ih =>
      cases second with
      | nil =>
          have := rest.le
          have := fits.1
          omega
      | cons here' fits' rest' =>
          obtain rfl := here.symm.trans here'
          rw [ih rest']

end Chain

theorem recordAt_congr (len : 8 ≤ mid) (same : ∀ k, pos ≤ k → k < pos + mid → b'.get k = b.get k)
    (fits : Dirent.inode b pos ≠ 0 → 8 + Dirent.nameLen b pos ≤ mid) : recordAt b' pos = recordAt b pos := by
  have inode : Dirent.inode b' pos = Dirent.inode b pos := by
    unfold Dirent.inode Bytes.field
    rw [Bytes.read_congr fun k _ _ => same k (by omega) (by omega)]
  have recLen : Dirent.recLen b' pos = Dirent.recLen b pos := by
    unfold Dirent.recLen Bytes.field
    rw [Bytes.read_congr fun k _ _ => same k (by omega) (by omega)]
  have nameLen : Dirent.nameLen b' pos = Dirent.nameLen b pos := by
    unfold Dirent.nameLen
    rw [same _ (by omega) (by omega)]
  unfold recordAt
  rw [inode, recLen]
  split
  · rfl
  · next live =>
      unfold Dirent.name
      rw [nameLen, Bytes.read_congr fun k _ _ => same k (by omega) (by have := fits live; omega)]

theorem recordAt_nameLen (live : Dirent.inode b pos ≠ 0) : (recordAt b pos).name.length = Dirent.nameLen b pos := by
  simp [recordAt, live, Dirent.name]

theorem Chain.congr (chain : Chain b pos stop rs) (same : ∀ k, pos ≤ k → k < stop → b'.get k = b.get k) :
    Chain b' pos stop rs := by
  induction chain with
  | nil => exact .nil _
  | @cons pos stop r rs here fits rest ih =>
      have inside := rest.le
      have := fits.1
      refine .cons ?_ fits (ih fun k lower upper => same k (by omega) upper)
      rw [← here]
      subst here
      refine recordAt_congr fits.1 (fun k lower upper => same k lower (by omega)) fun live => ?_
      rw [← recordAt_nameLen live]
      exact (fits.2 live).2

/-- A record with its offset and its file type. -/
structure Entry extends Rec where
  pos : Nat
  fileType : UInt8
deriving DecidableEq

def entryAt (b : Block) (pos : Nat) : Entry := { recordAt b pos with pos, fileType := Dirent.fileType b pos }

theorem entryAt_toRec (b : Block) (pos : Nat) : (entryAt b pos).toRec = recordAt b pos := rfl

/-- Following `rec_len` from `pos` reaches exactly `stop`; every record has room for its header and, if it is live, for its name. -/
inductive Tiled (b : Block) : Nat → Nat → List Entry → Prop
  | nil (pos : Nat) : Tiled b pos pos []
  | cons {pos stop : Nat} {es : List Entry} (large : 8 ≤ (recordAt b pos).len)
      (room : (recordAt b pos).ino ≠ 0 → 8 + (recordAt b pos).name.length ≤ (recordAt b pos).len)
      (rest : Tiled b (pos + (recordAt b pos).len) stop es) : Tiled b pos stop (entryAt b pos :: es)

theorem Tiled.le {es : List Entry} (tiled : Tiled b pos stop es) : pos + 8 * es.length ≤ stop := by
  induction tiled with
  | nil => simp
  | cons large room rest ih =>
      rw [List.length_cons]
      omega

theorem Chain.tiled (chain : Chain b pos stop rs) : ∃ es, Tiled b pos stop es ∧ es.map Entry.toRec = rs := by
  induction chain with
  | nil pos => exact ⟨[], .nil pos, rfl⟩
  | @cons pos stop r rs here fits rest ih =>
      obtain ⟨es, tiled, rfl⟩ := ih
      subst here
      exact ⟨entryAt b pos :: es, .cons fits.1 (fun live => (fits.2 live).2) tiled, rfl⟩

theorem Chain.replace {i j : Nat} {before after new : List Rec} (start : Chain b pos i before)
    (changed : Chain b' i j new) (rest : Chain b j stop after)
    (same : ∀ k, k < i ∨ j ≤ k → b'.get k = b.get k) : Chain b' pos stop (before ++ (new ++ after)) :=
  (start.congr fun k _ upper => same k (.inl upper)).append
    (changed.append (rest.congr fun k lower _ => same k (.inr lower)))

theorem strncmpEq_eq (nul : 0 ∉ name) (inside : pos + name.length ≤ 4096) :
    strncmpEq b pos name = some (decide (b.read pos name.length = name)) := by
  induction name generalizing pos with
  | nil => simp [strncmpEq, Bytes.read]
  | cons c cs ih =>
      have hc : c ≠ 0 := fun h => nul (by simp [h])
      rw [List.length_cons] at inside
      rw [strncmpEq, if_neg (by omega), List.length_cons, Bytes.read_succ]
      by_cases same : b.get pos = c
      · simp only [same, bne_self_eq_false, Bool.false_eq_true, if_false, hc, List.cons.injEq, true_and]
        exact ih (fun h => nul (by simp [h])) (by omega)
      · simp [same]

theorem direntIs_eq (nul : 0 ∉ name) (short : name.length ≤ 254) (here : recordAt b pos = r) (room : 8 + r.name.length ≤ r.len)
    (live : r.live = true) (inside : pos + r.len ≤ 4096) : direntIs b pos name = some (decide (r.name = name)) := by
  subst here
  have nonzero : Dirent.inode b pos ≠ 0 := by simpa [Rec.live, recordAt] using live
  have hname : (recordAt b pos).name = Dirent.name b pos := if_neg nonzero
  have length := recordAt_nameLen nonzero
  unfold direntIs
  split
  · next same =>
      rw [Nat.mod_eq_of_lt (by omega)] at same
      rw [strncmpEq_eq nul (by omega), hname, Dirent.name, same]
  · next other =>
      have : (recordAt b pos).name ≠ name := by
        intro h
        rw [Nat.mod_eq_of_lt (by omega), ← length, h] at other
        exact other rfl
      simp [this]

/-- The records a lookup sees: it stops at the first free one. -/
def visible (rs : List Rec) : List Rec := rs.takeWhile Rec.live

theorem recordAt_ino (here : recordAt b pos = r) : Dirent.inode b pos = r.ino := by rw [← here]; rfl

theorem recordAt_len (here : recordAt b pos = r) : Dirent.recLen b pos = r.len := by rw [← here]; rfl

theorem lookupFrom_tiled (nul : 0 ∉ name) (short : name.length ≤ 254) {n : Nat} {es : List Entry} (tiled : Tiled b pos 4096 es)
    (fuel : es.length < n) :
    lookupFrom b name n pos = some (((visible (es.map Entry.toRec)).find? (·.name = name)).map Rec.ino) := by
  induction n generalizing pos es with
  | zero => omega
  | succ n ih =>
      cases tiled with
      | nil => simp [lookupFrom, visible]
      | @cons _ _ es large room rest =>
          have inside := rest.le
          rw [List.length_cons] at fuel
          rw [lookupFrom, if_neg (by omega), if_neg (by omega)]
          rw [List.map_cons, entryAt_toRec]
          change (if (recordAt b pos).ino = 0 then _ else if (recordAt b pos).len = 0 then _ else
            (do if ← direntIs b pos name then some (some (recordAt b pos).ino) else lookupFrom b name n (pos + (recordAt b pos).len))) = _
          generalize here : recordAt b pos = r at *
          by_cases free : r.ino = 0
          · simp [free, visible, Rec.live]
          · have live : r.live = true := by simpa [Rec.live] using free
            rw [if_neg free, if_neg (by omega), direntIs_eq nul short here (room free) live (by omega)]
            simp only [visible, List.takeWhile_cons, live, if_true, List.find?_cons, Option.bind_eq_bind,
              Option.bind_some]
            by_cases same : r.name = name
            · simp [same]
            · simp only [same, decide_false, Bool.false_eq_true, if_false]
              exact ih rest (by omega)

theorem lookupFrom_eq (nul : 0 ∉ name) (short : name.length ≤ 254) {n : Nat} (chain : Chain b pos 4096 rs)
    (fuel : rs.length < n) :
    lookupFrom b name n pos = some (((visible rs).find? (·.name = name)).map Rec.ino) := by
  obtain ⟨es, tiled, rfl⟩ := chain.tiled
  exact lookupFrom_tiled nul short tiled (by simpa using fuel)

theorem removeFrom_eq (nul : 0 ∉ name) (short : name.length ≤ 254) {n : Nat} (chain : Chain b pos 4096 rs)
    (fuel : rs.length < n) :
    (removeFrom b name n pos = some none ∧ ∀ r ∈ visible rs, r.name ≠ name) ∨
      ∃ i before r after, removeFrom b name n pos = some (some i) ∧ rs = before ++ r :: after ∧
        (∀ q ∈ before, q.live = true ∧ q.name ≠ name) ∧ r.live = true ∧ r.name = name ∧
        Chain b pos i before ∧ recordAt b i = r ∧ r.Fits ∧ Chain b (i + r.len) 4096 after := by
  induction n generalizing pos rs with
  | zero => omega
  | succ n ih =>
      cases chain with
      | nil => exact .inl ⟨by simp [removeFrom], by simp [visible]⟩
      | @cons _ _ r rs here fits rest =>
          have inside := rest.le
          have large := fits.1
          rw [List.length_cons] at fuel
          rw [removeFrom, if_neg (by omega), if_neg (by omega), recordAt_ino here, recordAt_len here]
          by_cases free : r.ino = 0
          · exact .inl ⟨by simp [free], by simp [visible, Rec.live, free]⟩
          · have live : r.live = true := by simpa [Rec.live] using free
            rw [if_neg free, direntIs_eq nul short here (fits.2 free).2 live (by omega)]
            simp only [Option.bind_eq_bind, Option.bind_some]
            by_cases same : r.name = name
            · refine .inr ⟨pos, [], r, rs, by simp [same], rfl, by simp, live, same, .nil pos, here, fits, rest⟩
            · simp only [same, decide_false, Bool.false_eq_true, if_false, show r.len ≠ 0 by omega]
              rcases ih rest (by omega) with ⟨none, all⟩ | ⟨i, before, q, after, some, rfl, all, found⟩
              · refine .inl ⟨none, ?_⟩
                simp only [visible, List.takeWhile_cons, live, if_true, List.mem_cons]
                rintro q (rfl | hq)
                · exact same
                · exact all q hq
              · obtain ⟨hlive, hname, start, rest⟩ := found
                refine .inr ⟨i, r :: before, q, after, some, rfl, ?_, hlive, hname, .cons here fits start, rest⟩
                simp only [List.mem_cons]
                rintro p (rfl | hp)
                · exact ⟨live, same⟩
                · exact all p hp

def Rec.takes (reclen : Nat) (r : Rec) : Bool := r.ino == 0 && reclen ≤ r.len

theorem slotFrom_eq {reclen n : Nat} (chain : Chain b pos 4096 rs) (fuel : rs.length < n) :
    (slotFrom b reclen n pos = some none ∧ ∀ r ∈ rs, r.takes reclen = false) ∨
      ∃ i before r after, slotFrom b reclen n pos = some (some i) ∧ rs = before ++ r :: after ∧
        (∀ q ∈ before, q.takes reclen = false) ∧ r.takes reclen = true ∧
        Chain b pos i before ∧ recordAt b i = r ∧ Chain b (i + r.len) 4096 after := by
  induction n generalizing pos rs with
  | zero => omega
  | succ n ih =>
      cases chain with
      | nil => exact .inl ⟨by simp [slotFrom], by simp⟩
      | @cons _ _ r rs here fits rest =>
          have inside := rest.le
          have large := fits.1
          rw [List.length_cons] at fuel
          rw [slotFrom, if_neg (by omega), if_neg (by omega), recordAt_ino here, recordAt_len here]
          by_cases takes : r.ino = 0 ∧ reclen ≤ r.len
          · refine .inr ⟨pos, [], r, rs, by simp [takes], rfl, by simp, ?_, .nil pos, here, rest⟩
            simp [Rec.takes, takes]
          · have not : r.takes reclen = false := by
              simpa [Rec.takes] using takes
            rw [if_neg takes, if_neg (by omega)]
            rcases ih rest (by omega) with ⟨none, all⟩ | ⟨i, before, q, after, some, rfl, all, found⟩
            · refine .inl ⟨none, ?_⟩
              simp only [List.mem_cons]
              rintro q (rfl | hq)
              · exact not
              · exact all q hq
            · obtain ⟨htakes, start, rest⟩ := found
              refine .inr ⟨i, r :: before, q, after, some, rfl, ?_, htakes, .cons here fits start, rest⟩
              simp only [List.mem_cons]
              rintro p (rfl | hp)
              · exact not
              · exact all p hp

section Edits
variable {p ino len k : Nat} {fileType : UInt8}

theorem get_setInode (h : k < p ∨ p + 4 ≤ k) : (Dirent.setInode p ino b).get k = b.get k := by
  unfold Dirent.setInode
  rw [Bytes.get_write, length_leBytes, if_neg (by omega)]

theorem get_setRecLen (h : k < p + 4 ∨ p + 6 ≤ k) : (Dirent.setRecLen p len b).get k = b.get k := by
  unfold Dirent.setRecLen
  rw [Bytes.get_write, length_leBytes, if_neg (by omega)]

theorem get_fill (h : k < p ∨ (p + 4 ≤ k ∧ k < p + 6) ∨ p + 8 + name.length ≤ k) :
    (Dirent.fill p ino fileType name b).get k = b.get k := by
  unfold Dirent.fill
  rw [Bytes.get_write, if_neg (by simp only [List.length_cons]; omega), get_setInode (by omega)]

theorem inode_setInode (inside : p + 4 ≤ 4096) (small : ino < 2 ^ 32) :
    Dirent.inode (Dirent.setInode p ino b) p = ino := by
  unfold Dirent.inode Dirent.setInode
  rw [Bytes.field_write_same b (w := 4) inside]
  exact Nat.mod_eq_of_lt (by omega)

theorem recLen_setRecLen (inside : p + 6 ≤ 4096) (small : len < 2 ^ 16) :
    Dirent.recLen (Dirent.setRecLen p len b) p = len := by
  unfold Dirent.recLen Dirent.setRecLen
  rw [Bytes.field_write_same b (w := 2) (by omega)]
  exact Nat.mod_eq_of_lt (by omega)

theorem inode_congr (same : ∀ k, p ≤ k → k < p + 4 → b'.get k = b.get k) :
    Dirent.inode b' p = Dirent.inode b p := by
  unfold Dirent.inode Bytes.field
  rw [Bytes.read_congr same]

theorem recLen_congr (same : ∀ k, p + 4 ≤ k → k < p + 6 → b'.get k = b.get k) :
    Dirent.recLen b' p = Dirent.recLen b p := by
  unfold Dirent.recLen Bytes.field
  rw [Bytes.read_congr fun k lower upper => same k lower (by omega)]

theorem inode_fill (inside : p + 8 + name.length ≤ 4096) (small : ino < 2 ^ 32) :
    Dirent.inode (Dirent.fill p ino fileType name b) p = ino := by
  refine (inode_congr fun k lower upper => ?_).trans (inode_setInode (b := b) (by omega) small)
  unfold Dirent.fill
  exact Bytes.get_write_of_lt _ _ (by omega)

theorem name_fill (inside : p + 8 + name.length ≤ 4096) (short : name.length ≤ 254) :
    Dirent.name (Dirent.fill p ino fileType name b) p = name := by
  have length : Dirent.nameLen (Dirent.fill p ino fileType name b) p = name.length := by
    unfold Dirent.nameLen Dirent.fill
    rw [Bytes.get_write, if_pos (by simp only [List.length_cons]; omega), Nat.sub_self, List.getD_cons_zero,
      UInt8.toNat_ofNat']
    omega
  have := Bytes.read_write_inside (Dirent.setInode p ino b) (p + 6) 2 name.length
    (UInt8.ofNat name.length :: fileType :: name) (by simp; omega) (by simp; omega)
  unfold Dirent.name
  rw [length]
  simpa [Dirent.fill, Nat.add_assoc] using this

theorem recordAt_filled (b : Block) (fileType : UInt8) (inside : p + 8 + name.length ≤ 4096) (short : name.length ≤ 254) (small : ino < 2 ^ 32)
    (nonzero : ino ≠ 0) (same : ∀ k, p ≤ k → k < p + 8 + name.length → ¬ (p + 4 ≤ k ∧ k < p + 6) →
      b'.get k = (Dirent.fill p ino fileType name b).get k)
    (recLen : Dirent.recLen b' p = len) : recordAt b' p = ⟨len, ino, name⟩ := by
  have inode : Dirent.inode b' p = ino := by
    have eq := inode_congr fun k lower upper => same k lower (by omega) (by omega)
    exact eq.trans (inode_fill inside small)
  have nameLen : Dirent.nameLen b' p = Dirent.nameLen (Dirent.fill p ino fileType name b) p := by
    unfold Dirent.nameLen
    rw [same _ (by omega) (by omega) (by omega)]
  have length : Dirent.nameLen (Dirent.fill p ino fileType name b) p = name.length := by
    rw [← Bytes.length_read (Dirent.fill p ino fileType name b) (p + 8) (Dirent.nameLen _ _)]
    exact congrArg List.length (name_fill inside short)
  have hname : Dirent.name b' p = name := by
    have eq : Dirent.name b' p = Dirent.name (Dirent.fill p ino fileType name b) p := by
      unfold Dirent.name
      rw [nameLen, length]
      exact Bytes.read_congr fun k lower upper => same k (by omega) upper (by omega)
    rw [eq, name_fill inside short]
  rw [recordAt, inode, recLen, if_neg nonzero, hname]

def Rec.use (reclen ino : Nat) (name : List UInt8) (r : Rec) : List Rec :=
  if reclen + 8 ≤ r.len then [⟨reclen, ino, name⟩, .free (r.len - reclen)] else [⟨r.len, ino, name⟩]

theorem recordAt_free (inode : Dirent.inode b p = 0) (recLen : Dirent.recLen b p = len) :
    recordAt b p = .free len := by
  rw [recordAt, inode, recLen, if_pos rfl, Rec.free]

theorem fits_free (h : 8 ≤ len) : (Rec.free len).Fits := ⟨h, fun h => (h rfl).elim⟩

theorem chain_useSlot {reclen : Nat} (here : recordAt b p = r) (room : 8 + name.length ≤ reclen)
    (large : reclen ≤ r.len) (inside : p + r.len ≤ 4096) (short : name.length ≤ 254) (small : ino < 2 ^ 32)
    (nonzero : ino ≠ 0) :
    Chain (useSlot p reclen ino fileType name b) p (p + r.len) (r.use reclen ino name) ∧
      ∀ k, k < p ∨ p + r.len ≤ k → (useSlot p reclen ino fileType name b).get k = b.get k := by
  have length : Dirent.recLen b p = r.len := recordAt_len here
  have eq : useSlot p reclen ino fileType name b = if reclen + 8 ≤ r.len then
      Dirent.setRecLen p reclen (Dirent.setRecLen (p + reclen) (r.len - reclen)
        (Dirent.setInode (p + reclen) 0 (Dirent.fill p ino fileType name b)))
      else Dirent.setRecLen p r.len (Dirent.fill p ino fileType name b) := by
    rw [← length]
    rfl
  rw [eq, Rec.use]
  by_cases divide : reclen + 8 ≤ r.len
  · simp only [if_pos divide]
    · refine ⟨.cons ?_ ⟨by dsimp only; omega, fun _ => ⟨short, room⟩⟩ (.cons ?_ (fits_free (by omega)) ?_), ?_⟩
      · refine recordAt_filled b fileType (by omega) short small nonzero (fun k lower upper other => ?_)
          (recLen_setRecLen (by omega) (by omega))
        rw [get_setRecLen (by omega), get_setRecLen (by omega), get_setInode (by omega)]
      · refine recordAt_free ?_ ?_
        · refine (inode_congr fun k lower upper => ?_).trans
            (inode_setInode (b := Dirent.fill p ino fileType name b) (by dsimp only; omega) (by decide))
          dsimp only at lower upper ⊢
          rw [get_setRecLen (by omega), get_setRecLen (by omega)]
        · refine (recLen_congr fun k lower upper => ?_).trans
            (recLen_setRecLen (b := Dirent.setInode (p + reclen) 0 (Dirent.fill p ino fileType name b))
              (by dsimp only; omega) (by omega))
          dsimp only at lower upper ⊢
          rw [get_setRecLen (by omega)]
      · have stop : p + reclen + (Rec.free (r.len - reclen)).len = p + r.len := by simp only [Rec.free]; omega
        rw [stop]
        exact .nil _
      · intro k outside
        rw [get_setRecLen (by omega), get_setRecLen (by omega), get_setInode (by omega), get_fill (by omega)]
  · simp only [if_neg divide]
    · refine ⟨.cons ?_ ⟨by dsimp only; omega, fun _ => ⟨short, by dsimp only; omega⟩⟩ (.nil _), ?_⟩
      · refine recordAt_filled b fileType (by omega) short small nonzero (fun k lower upper other => ?_)
          (recLen_setRecLen (by omega) (by omega))
        rw [get_setRecLen (by omega)]
      · intro k outside
        rw [get_setRecLen (by omega), get_fill (by omega)]

theorem chain_firstRecord {reclen : Nat} (room : 8 + name.length ≤ reclen) (large : reclen ≤ 4088)
    (short : name.length ≤ 254) (small : ino < 2 ^ 32) (nonzero : ino ≠ 0) :
    Chain (firstRecord reclen ino fileType name b) 0 4096 [⟨reclen, ino, name⟩, .free (4096 - reclen)] := by
  have eq : firstRecord reclen ino fileType name b = Dirent.setRecLen reclen (4096 - reclen)
      (Dirent.setInode reclen 0 (Dirent.setRecLen 0 reclen (Dirent.fill 0 ino fileType name b))) :=
    if_pos (by omega)
  rw [eq]
  refine .cons ?_ ⟨by dsimp only; omega, fun _ => ⟨short, room⟩⟩ (.cons ?_ (fits_free (by omega)) ?_)
  · refine recordAt_filled b fileType (by omega) short small nonzero (fun k lower upper other => ?_) ?_
    · rw [get_setRecLen (by omega), get_setInode (by omega), get_setRecLen (by omega)]
    · refine (recLen_congr fun k lower upper => ?_).trans
        (recLen_setRecLen (b := Dirent.fill 0 ino fileType name b) (by omega) (by omega))
      rw [get_setRecLen (by omega), get_setInode (by omega)]
  · simp only [Nat.zero_add]
    refine recordAt_free ?_ (recLen_setRecLen (by omega) (by omega))
    refine (inode_congr fun k lower upper => ?_).trans (inode_setInode
      (b := Dirent.setRecLen 0 reclen (Dirent.fill 0 ino fileType name b)) (by omega) (by decide))
    rw [get_setRecLen (by omega)]
  · have stop : 0 + reclen + (Rec.free (4096 - reclen)).len = 4096 := by simp only [Rec.free]; omega
    rw [stop]
    exact .nil _

theorem chain_clear (here : recordAt b p = r) (large : 8 ≤ r.len) (inside : p + r.len ≤ 4096) :
    Chain (Dirent.setInode p 0 b) p (p + r.len) [.free r.len] ∧
      ∀ k, k < p ∨ p + r.len ≤ k → (Dirent.setInode p 0 b).get k = b.get k := by
  refine ⟨.cons (recordAt_free (inode_setInode (by omega) (by decide)) ?_) (fits_free large) (.nil _),
    fun k outside => get_setInode (by omega)⟩
  rw [← recordAt_len here]
  exact recLen_congr fun k lower upper => get_setInode (by omega)

end Edits

end SwiftBSD.Proof.Fs
