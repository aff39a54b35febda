import SwiftBSD.Fs.Io
import SwiftBSD.Lib.WriteBack

namespace SwiftBSD.Proof.Fs
open Lib Lib.WriteBack SwiftBSD.Fs SwiftBSD.Fs.Io

variable {c : Cache} {d : Drive} {L : Nat → Block} {b : Nat} {i j : Fin 64} {out : Outcome} {ok : Bool}

def lineOf (e : CacheEntry) : Option (Line Nat Block) := if e.valid then some ⟨e.block, e.data, e.dirty⟩ else none

def lines (c : Cache) (i : Fin 64) : Option (Line Nat Block) := lineOf (c.entry i)

/-- Cache and disk together hold the contents `L`. -/
structure Stands (c : Cache) (L : Nat → Block) : Prop where
  represents : Represents (lines c) c.disk L
  group : ∀ i, (c.entry i).valid = true → (c.entry i).group = 0
  dirty : ∀ i, (c.entry i).dirty = true → (c.entry i).valid = true

theorem lines_valid (valid : (c.entry i).valid = true) : lines c i = some ⟨(c.entry i).block, (c.entry i).data, (c.entry i).dirty⟩ := by
  unfold lines lineOf
  rw [if_pos valid]

theorem lines_some {l : Line Nat Block} (here : lines c i = some l) :
    (c.entry i).valid = true ∧ l = ⟨(c.entry i).block, (c.entry i).data, (c.entry i).dirty⟩ := by
  unfold lines lineOf at here
  split at here
  · next valid => exact ⟨valid, (Option.some.inj here).symm⟩
  · cases here

theorem stands_empty (empty : ∀ i, c.entry i = .empty) : Stands c c.disk where
  represents := by
    refine represents_empty fun i => ?_
    unfold lines
    rw [empty i]
    rfl
  group := fun i valid => by rw [empty i] at valid; cases valid
  dirty := fun i dirty => by rw [empty i] at dirty; cases dirty

theorem lookup_holds (found : c.cacheLookup b 0 = some i) : (c.entry i).valid = true ∧ (c.entry i).block = b := by
  have holds := List.find?_some found
  unfold CacheEntry.holds at holds
  simp only [Bool.and_eq_true, beq_iff_eq] at holds
  exact holds.1

section Stands
variable (stands : Stands c L)
include stands

theorem Stands.absent (none : c.cacheLookup b 0 = none) (valid : (c.entry i).valid = true) : (c.entry i).block ≠ b := by
  intro same
  refine List.find?_eq_none.mp none i (List.mem_finRange i) ?_
  unfold CacheEntry.holds
  rw [valid, stands.group i valid, same]
  simp

theorem Stands.no_line (none : c.cacheLookup b 0 = none) (i : Fin 64) (l : Line Nat Block) (here : lines c i = some l) : l.key ≠ b := by
  obtain ⟨valid, rfl⟩ := lines_some here
  exact stands.absent none valid

theorem Stands.unique (valid : (c.entry i).valid = true) (valid' : (c.entry j).valid = true)
    (same : (c.entry i).block = (c.entry j).block) : i = j :=
  stands.represents.unique i j _ _ (lines_valid valid) (lines_valid valid') same

theorem Stands.data (valid : (c.entry i).valid = true) : (c.entry i).data = L (c.entry i).block :=
  stands.represents.value i _ (lines_valid valid)

theorem Stands.lookup (valid : (c.entry i).valid = true) : c.cacheLookup (c.entry i).block 0 = some i := by
  cases found : c.cacheLookup (c.entry i).block 0 with
  | none => exact absurd rfl (stands.absent found valid)
  | some j =>
      obtain ⟨valid', same⟩ := lookup_holds found
      rw [stands.unique valid' valid same]

end Stands

/-- The disk when the victim has been written back. -/
def diskAfter (c : Cache) (out : Outcome) : Nat → Block :=
  let victim := c.entry c.next
  if victim.dirty then Function.update c.disk victim.block (out.getD victim.data) else c.disk

def callsAfter (c : Cache) : List (Nat × Block) :=
  let victim := c.entry c.next
  if victim.dirty then [(victim.block, victim.data)] else []

theorem replace_eq : d.replace b 0 out ok =
    ⟨⟨diskAfter d.cache out,
      Function.update d.cache.entry d.cache.next ⟨b, 0, if ok then diskAfter d.cache out b else (d.cache.entry d.cache.next).data, false, true⟩,
      d.cache.next + 1⟩, d.calls ++ callsAfter d.cache⟩ := by
  unfold Drive.replace diskAfter callsAfter
  dsimp only
  by_cases dirty : (d.cache.entry d.cache.next).dirty = true
  · simp only [if_pos dirty]
    rfl
  · simp only [if_neg dirty, List.append_nil]
    rfl

/-- A write that fails leaves what should have been written. -/
def Harmless (e : CacheEntry) (out : Outcome) : Prop := e.dirty = true → out.getD e.data = e.data

theorem Stands.replace (stands : Stands d.cache L) (none : d.cache.cacheLookup b 0 = none)
    (harmless : Harmless (d.cache.entry d.cache.next) out) : Stands (d.replace b 0 out true).cache L := by
  have same (j : Fin 64) (other : j ≠ d.cache.next) : (d.replace b 0 out true).cache.entry j = d.cache.entry j := by
    rw [replace_eq]
    exact Function.update_of_ne other _ _
  have here : (d.replace b 0 out true).cache.entry d.cache.next = ⟨b, 0, diskAfter d.cache out b, false, true⟩ := by
    rw [replace_eq]
    exact Function.update_self _ _ _
  have victim (dirty : (d.cache.entry d.cache.next).dirty = true) : out.getD (d.cache.entry d.cache.next).data =
      L (d.cache.entry d.cache.next).block := by
    rw [harmless dirty]
    exact stands.data (stands.dirty _ dirty)
  have evicted : Represents (Function.update (lines d.cache) d.cache.next Option.none) (diskAfter d.cache out) L := by
    refine stands.represents.evict (fun j other => Function.update_of_ne other _ _) (Function.update_self _ _ _) (fun k => ?_) ?_
    · unfold diskAfter
      split
      · next dirty =>
          by_cases written : k = (d.cache.entry d.cache.next).block
          · subst written
            rw [Function.update_self]
            exact .inr (victim dirty)
          · rw [Function.update_of_ne written]
            exact .inl rfl
      · exact .inl rfl
    · intro l at_ dirty
      obtain ⟨-, rfl⟩ := lines_some at_
      have dirty : (d.cache.entry d.cache.next).dirty = true := dirty
      unfold diskAfter
      rw [if_pos dirty, Function.update_self]
      exact victim dirty
  refine ⟨?_, fun j valid => ?_, fun j dirty => ?_⟩
  · suffices filled : Represents (lines (d.replace b 0 out true).cache) (diskAfter d.cache out) L by
      rw [replace_eq] at filled ⊢
      exact filled
    refine evicted.fill (i := d.cache.next) (k := b) (fun j other => ?_) (Function.update_self _ _ _) (fun j l at_ => ?_) ?_
    · rw [Function.update_of_ne other]
      unfold lines
      rw [same j other]
    · by_cases other : j = d.cache.next
      · subst other
        rw [Function.update_self] at at_
        cases at_
      · rw [Function.update_of_ne other] at at_
        exact stands.no_line none j l at_
    · unfold lines
      rw [here]
      rfl
  · by_cases other : j = d.cache.next
    · subst other
      rw [here]
    · rw [same j other] at valid ⊢
      exact stands.group j valid
  · by_cases other : j = d.cache.next
    · subst other
      rw [here]
    · rw [same j other] at dirty ⊢
      exact stands.dirty j dirty

def Quiet (c : Cache) : Op → Prop
  | .get block out ok | .modify block _ out ok =>
      c.cacheLookup block 0 = none → ok = true ∧ Harmless (c.entry c.next) out
  | .flush out => ∀ i, Harmless (c.entry i) (out i)

/-- The pointer leads to the contents of the block. -/
structure Got (d : Drive) (L : Nat → Block) (b : Nat) (r : Option (Fin 64) × Drive) (i : Fin 64) : Prop where
  pointer : r.1 = some i
  stands : Stands r.2.cache L
  valid : (r.2.cache.entry i).valid = true
  block : (r.2.cache.entry i).block = b

theorem Stands.cacheGet (stands : Stands d.cache L) (quiet : d.cache.cacheLookup b 0 = none → ok = true ∧ Harmless (d.cache.entry d.cache.next) out) :
    ∃ i, Got d L b (d.cacheGet b 0 out ok) i := by
  unfold Drive.cacheGet
  cases found : d.cache.cacheLookup b 0 with
  | some i =>
      obtain ⟨valid, block⟩ := lookup_holds found
      exact ⟨i, rfl, stands, valid, block⟩
  | none =>
      obtain ⟨rfl, harmless⟩ := quiet found
      refine ⟨d.cache.next, rfl, stands.replace found harmless, ?_, ?_⟩
      · rw [replace_eq]
        dsimp only
        rw [Function.update_self]
      · rw [replace_eq]
        dsimp only
        rw [Function.update_self]

theorem Stands.store {f : Block → Block} (stands : Stands c L) (valid : (c.entry i).valid = true) (block : (c.entry i).block = b) :
    Stands ((c.setData i f).cacheMarkDirty b 0) (Function.update L b (f (L b))) := by
  have marked : (c.setData i f).cacheMarkDirty b 0 =
      { c with entry := Function.update c.entry i { c.entry i with data := f (c.entry i).data, dirty := true } } := by
    have lookup : (c.setData i f).cacheLookup b 0 = some i := by
      rw [← block, ← stands.lookup valid]
      unfold Cache.cacheLookup
      congr 1
      funext j
      unfold Cache.setData CacheEntry.holds
      dsimp only
      by_cases same : j = i
      · subst same
        rw [Function.update_self]
      · rw [Function.update_of_ne same]
    unfold Cache.cacheMarkDirty
    rw [lookup]
    unfold Cache.setData
    dsimp only
    rw [Function.update_self, Function.update_idem]
  rw [marked]
  have here : Function.update c.entry i { c.entry i with data := f (c.entry i).data, dirty := true } i =
      { c.entry i with data := f (c.entry i).data, dirty := true } := Function.update_self _ _ _
  have same (j : Fin 64) (other : j ≠ i) :
      Function.update c.entry i { c.entry i with data := f (c.entry i).data, dirty := true } j = c.entry j := Function.update_of_ne other _ _
  refine ⟨?_, fun j valid' => ?_, fun j dirty => ?_⟩
  · subst block
    rw [← stands.data valid]
    refine stands.represents.modify (fun j other => ?_) (lines_valid valid) ?_
    · unfold lines
      dsimp only
      rw [same j other]
    · change lineOf (Function.update c.entry i _ i) = _
      rw [here]
      exact if_pos valid
  · dsimp only at valid' ⊢
    by_cases other : j = i
    · subst other
      rw [here]
      exact stands.group j valid
    · rw [same j other] at valid' ⊢
      exact stands.group j valid'
  · dsimp only at dirty ⊢
    by_cases other : j = i
    · subst other
      rw [here]
      exact valid
    · rw [same j other] at dirty ⊢
      exact stands.dirty j dirty

theorem flushEntry_flushed (valid : (d.cache.entry i).valid = true) (dirty : (d.cache.entry i).dirty = true) (outs : Fin 64 → Outcome) :
    d.flushEntry outs i = ⟨⟨Function.update d.cache.disk (d.cache.entry i).block ((outs i).getD (d.cache.entry i).data),
      Function.update d.cache.entry i { d.cache.entry i with dirty := false }, d.cache.next⟩,
      d.calls ++ [((d.cache.entry i).block, (d.cache.entry i).data)]⟩ := by
  unfold Drive.flushEntry
  dsimp only
  rw [if_pos (by rw [valid, dirty]; rfl)]
  rfl

theorem flushEntry_skipped (skip : ¬((d.cache.entry i).valid = true ∧ (d.cache.entry i).dirty = true)) (outs : Fin 64 → Outcome) :
    d.flushEntry outs i = d := by
  unfold Drive.flushEntry
  dsimp only
  rw [if_neg (by rwa [Bool.and_eq_true])]

theorem Stands.flushEntry {outs : Fin 64 → Outcome} (stands : Stands d.cache L) (harmless : Harmless (d.cache.entry i) (outs i)) :
    Stands (d.flushEntry outs i).cache L := by
  by_cases both : (d.cache.entry i).valid = true ∧ (d.cache.entry i).dirty = true
  swap
  · rw [flushEntry_skipped both]
    exact stands
  obtain ⟨valid, dirty⟩ := both
  rw [flushEntry_flushed valid dirty]
  refine ⟨?_, fun j valid' => ?_, fun j dirty' => ?_⟩
  · refine stands.represents.writeBack (fun j other => ?_) (lines_valid valid) ?_ (fun k other => Function.update_of_ne other _ _) ?_
    · unfold lines
      dsimp only
      rw [Function.update_of_ne other]
    · change lineOf (Function.update d.cache.entry i _ i) = _
      rw [Function.update_self]
      exact if_pos valid
    · dsimp only
      rw [Function.update_self, harmless dirty]
      exact stands.data valid
  · dsimp only at valid' ⊢
    by_cases other : j = i
    · subst other
      rw [Function.update_self]
      exact stands.group j valid
    · rw [Function.update_of_ne other] at valid' ⊢
      exact stands.group j valid'
  · dsimp only at dirty' ⊢
    by_cases other : j = i
    · subst other
      rw [Function.update_self]
      exact valid
    · rw [Function.update_of_ne other] at dirty' ⊢
      exact stands.dirty j dirty'

theorem flushEntry_other (outs : Fin 64 → Outcome) (other : j ≠ i) : (d.flushEntry outs i).cache.entry j = d.cache.entry j := by
  by_cases both : (d.cache.entry i).valid = true ∧ (d.cache.entry i).dirty = true
  · rw [flushEntry_flushed both.1 both.2]
    exact Function.update_of_ne other _ _
  · rw [flushEntry_skipped both]

/-- An entry before and after it has been written back. -/
structure Flushed (e e' : CacheEntry) : Prop where
  block : e'.block = e.block
  data : e'.data = e.data
  valid : e'.valid = e.valid
  dirty : e'.dirty = true → e.dirty = true

theorem flushEntry_entry (outs : Fin 64 → Outcome) (i j : Fin 64) : Flushed (d.cache.entry j) ((d.flushEntry outs i).cache.entry j) := by
  by_cases other : j = i
  swap
  · rw [flushEntry_other outs other]
    exact ⟨rfl, rfl, rfl, id⟩
  subst other
  by_cases both : (d.cache.entry j).valid = true ∧ (d.cache.entry j).dirty = true
  · rw [flushEntry_flushed both.1 both.2]
    dsimp only
    rw [Function.update_self]
    exact ⟨rfl, rfl, rfl, fun _ => both.2⟩
  · rw [flushEntry_skipped both]
    exact ⟨rfl, rfl, rfl, id⟩

section Flush
variable {outs : Fin 64 → Outcome} {xs : List (Fin 64)}

theorem Stands.flushList (stands : Stands d.cache L) (nodup : xs.Nodup) (harmless : ∀ i ∈ xs, Harmless (d.cache.entry i) (outs i)) :
    Stands (xs.foldl (Drive.flushEntry outs) d).cache L := by
  induction xs generalizing d with
  | nil => exact stands
  | cons i xs ih =>
      rw [List.nodup_cons] at nodup
      refine ih (stands.flushEntry (harmless i List.mem_cons_self)) nodup.2 fun j member => ?_
      have other : j ≠ i := by
        rintro rfl
        exact nodup.1 member
      rw [flushEntry_other outs other]
      exact harmless j (List.mem_cons_of_mem i member)

theorem flushList_entry (d : Drive) (outs : Fin 64 → Outcome) (xs : List (Fin 64)) (j : Fin 64) : Flushed (d.cache.entry j) ((xs.foldl (Drive.flushEntry outs) d).cache.entry j) ∧
    (j ∈ xs → (d.cache.entry j).valid = true → ((xs.foldl (Drive.flushEntry outs) d).cache.entry j).dirty = false) := by
  induction xs generalizing d with
  | nil => exact ⟨⟨rfl, rfl, rfl, id⟩, fun member => absurd member (List.not_mem_nil)⟩
  | cons i xs ih =>
      have first := flushEntry_entry (d := d) outs i j
      obtain ⟨rest, cleaned⟩ := ih (d := d.flushEntry outs i)
      refine ⟨⟨rest.block.trans first.block, rest.data.trans first.data, rest.valid.trans first.valid,
        fun dirty => first.dirty (rest.dirty dirty)⟩, fun member valid => ?_⟩
      rcases List.mem_cons.mp member with rfl | member
      · cases after : ((xs.foldl (Drive.flushEntry outs) (d.flushEntry outs j)).cache.entry j).dirty with
        | false => exact after
        | true =>
            have still := rest.dirty after
            rw [flushEntry_flushed valid (first.dirty still)] at still
            dsimp only at still
            rw [Function.update_self] at still
            cases still
      · exact cleaned member (first.valid.trans valid)

theorem flushList_disk (free : ∀ i ∈ xs, (d.cache.entry i).valid = true → (d.cache.entry i).block ≠ b) :
    (xs.foldl (Drive.flushEntry outs) d).cache.disk b = d.cache.disk b := by
  induction xs generalizing d with
  | nil => rfl
  | cons i xs ih =>
      have rest := ih (d := d.flushEntry outs i) fun j member valid => by
        have same := flushEntry_entry (d := d) outs i j
        rw [same.block]
        exact free j (List.mem_cons_of_mem i member) (same.valid.symm.trans valid)
      refine rest.trans ?_
      by_cases both : (d.cache.entry i).valid = true ∧ (d.cache.entry i).dirty = true
      · rw [flushEntry_flushed both.1 both.2]
        exact Function.update_of_ne (free i List.mem_cons_self both.1).symm _ _
      · rw [flushEntry_skipped both]

theorem flushList_written (unique : ∀ i j, (d.cache.entry i).valid = true → (d.cache.entry j).valid = true →
    (d.cache.entry i).block = (d.cache.entry j).block → i = j) (nodup : xs.Nodup) (member : i ∈ xs)
    (valid : (d.cache.entry i).valid = true) (dirty : (d.cache.entry i).dirty = true) :
    (xs.foldl (Drive.flushEntry outs) d).cache.disk (d.cache.entry i).block = (outs i).getD (d.cache.entry i).data := by
  induction xs generalizing d with
  | nil => cases member
  | cons k xs ih =>
      rw [List.nodup_cons] at nodup
      have same (j : Fin 64) := flushEntry_entry (d := d) outs k j
      by_cases head : i = k
      · subst head
        refine (flushList_disk (d := d.flushEntry outs i) fun j inTail valid' here => ?_).trans ?_
        · rw [(same j).block] at here
          rw [(same j).valid] at valid'
          exact nodup.1 (unique j i valid' valid here ▸ inTail)
        · rw [flushEntry_flushed valid dirty]
          exact Function.update_self _ _ _
      · have entry := flushEntry_other (d := d) outs head
        have rest := @ih (d.flushEntry outs k) ?_ nodup.2 ((List.mem_cons.mp member).resolve_left head)
          (by rw [entry]; exact valid) (by rw [entry]; exact dirty)
        · rw [entry] at rest
          exact rest
        · intro j j' valid' valid'' blocks
          rw [(same j).block, (same j').block] at blocks
          exact unique j j' ((same j).valid.symm.trans valid') ((same j').valid.symm.trans valid'') blocks

theorem flushList_calls (d : Drive) (outs : Fin 64 → Outcome) (xs : List (Fin 64)) : ∃ new, (xs.foldl (Drive.flushEntry outs) d).calls = d.calls ++ new ∧
    ∀ call ∈ new, ∃ i, (d.cache.entry i).valid = true ∧ call = ((d.cache.entry i).block, (d.cache.entry i).data) := by
  induction xs generalizing d with
  | nil => exact ⟨[], (List.append_nil _).symm, fun call member => absurd member (List.not_mem_nil)⟩
  | cons i xs ih =>
      obtain ⟨new, calls, from_⟩ := ih (d := d.flushEntry outs i)
      have old (call : Nat × Block) (member : call ∈ new) :
          ∃ i, (d.cache.entry i).valid = true ∧ call = ((d.cache.entry i).block, (d.cache.entry i).data) := by
        obtain ⟨j, valid, rfl⟩ := from_ call member
        have same := flushEntry_entry (d := d) outs i j
        exact ⟨j, same.valid.symm.trans valid, by rw [same.block, same.data]⟩
      by_cases both : (d.cache.entry i).valid = true ∧ (d.cache.entry i).dirty = true
      · have first : (d.flushEntry outs i).calls = d.calls ++ [((d.cache.entry i).block, (d.cache.entry i).data)] := by
          rw [flushEntry_flushed both.1 both.2]
        refine ⟨((d.cache.entry i).block, (d.cache.entry i).data) :: new, ?_, fun call member => ?_⟩
        · refine calls.trans ?_
          rw [first, List.append_assoc]
          rfl
        · rcases List.mem_cons.mp member with rfl | member
          · exact ⟨i, both.1, rfl⟩
          · exact old call member
      · refine ⟨new, calls.trans ?_, old⟩
        rw [flushEntry_skipped both]

end Flush

theorem readFails_iff : d.readFails b 0 ok = true ↔ d.cache.cacheLookup b 0 = none ∧ ok = false := by
  unfold Drive.readFails
  rw [Bool.and_eq_true, Option.isNone_iff_eq_none, Bool.not_eq_true']

theorem not_readFails (read : d.cache.cacheLookup b 0 = none → ok = true) : ¬d.readFails b 0 ok = true := by
  rw [readFails_iff]
  rintro ⟨absent, failed⟩
  rw [read absent] at failed
  cases failed

theorem Stands.step {op : Op} (stands : Stands d.cache L) (quiet : Quiet d.cache op) : Stands (op.run d).cache (op.apply d L) := by
  cases op with
  | get b out ok =>
      obtain ⟨i, got⟩ := stands.cacheGet quiet
      exact got.stands
  | modify b f out ok =>
      obtain ⟨i, got⟩ := stands.cacheGet quiet
      have stored := got.stands.store (f := f) got.valid got.block
      change Stands (((d.cacheGet b 0 out ok).2).store (d.cacheGet b 0 out ok).1 b 0 f).cache (if d.readFails b 0 ok = true then _ else _)
      rw [got.pointer, if_neg (not_readFails fun absent => (quiet absent).1)]
      exact stored
  | flush outs => exact stands.flushList (List.nodup_finRange 64) fun i _ => quiet i

/-- A read that fails gives the null pointer and leaves no entry for the block; any other call gives its contents. -/
def AnswerOk (d : Drive) (L : Nat → Block) (b : Nat) (out : Outcome) (ok : Bool) : Prop :=
  let r := d.cacheGet b 0 out ok
  if d.readFails b 0 ok then r.1 = none ∧ ∀ i, (r.2.cache.entry i).valid = true → (r.2.cache.entry i).block ≠ b
  else ∃ i, r.1 = some i ∧ (r.2.cache.entry i).data = L b

/-- What a block holds is on the disk, or in an entry that is going to be written back. -/
def Kept (c : Cache) (L : Nat → Block) (b : Nat) : Prop :=
  c.disk b = L b ∨ ∃ i, (c.entry i).valid = true ∧ (c.entry i).dirty = true ∧ (c.entry i).block = b ∧ (c.entry i).data = L b

structure OpOk (d : Drive) (L : Nat → Block) (op : Op) : Prop where
  answer : match op with
    | .get b out ok | .modify b _ out ok => AnswerOk d L b out ok
    | .flush _ => True
  calls : ∃ new, (op.run d).calls = d.calls ++ new ∧ ∀ call ∈ new, call.2 = L call.1
  kept : ∀ b, Kept (op.run d).cache (op.apply d L) b

theorem Stands.kept (stands : Stands c L) (b : Nat) : Kept c L b := by
  rcases stands.represents.backed b with same | ⟨i, l, here, key, dirty⟩
  · exact .inl same
  · obtain ⟨valid, rfl⟩ := lines_some here
    have key : (c.entry i).block = b := key
    exact .inr ⟨i, valid, dirty, key, key ▸ stands.data valid⟩

theorem Stands.answer (stands : Stands d.cache L) (quiet : d.cache.cacheLookup b 0 = none → ok = true ∧ Harmless (d.cache.entry d.cache.next) out) :
    AnswerOk d L b out ok := by
  obtain ⟨i, got⟩ := stands.cacheGet quiet
  unfold AnswerOk
  dsimp only
  rw [if_neg (not_readFails fun absent => (quiet absent).1)]
  exact ⟨i, got.pointer, by rw [got.stands.data got.valid, got.block]⟩

theorem cacheGet_calls (stands : Stands d.cache L) (out : Outcome) (ok : Bool) :
    ∃ new, (d.cacheGet b 0 out ok).2.calls = d.calls ++ new ∧ ∀ call ∈ new, call.2 = L call.1 := by
  unfold Drive.cacheGet
  split
  · exact ⟨[], (List.append_nil _).symm, fun call member => absurd member (List.not_mem_nil)⟩
  · rw [replace_eq]
    refine ⟨callsAfter d.cache, rfl, fun call member => ?_⟩
    unfold callsAfter at member
    dsimp only at member
    split at member
    · next dirty =>
        obtain rfl := List.mem_singleton.mp member
        exact stands.data (stands.dirty _ dirty)
    · cases member

theorem store_calls (pointer : Option (Fin 64)) (f : Block → Block) : (d.store pointer b 0 f).calls = d.calls := by
  cases pointer <;> rfl

theorem Stands.calls (stands : Stands d.cache L) (op : Op) : ∃ new, (op.run d).calls = d.calls ++ new ∧ ∀ call ∈ new, call.2 = L call.1 := by
  cases op with
  | get b out ok => exact cacheGet_calls stands out ok
  | modify b f out ok =>
      obtain ⟨new, calls, right⟩ := cacheGet_calls (b := b) stands out ok
      exact ⟨new, (store_calls _ f).trans calls, right⟩
  | flush outs =>
      obtain ⟨new, calls, from_⟩ := flushList_calls d outs (List.finRange 64)
      refine ⟨new, calls, fun call member => ?_⟩
      obtain ⟨i, valid, rfl⟩ := from_ call member
      exact stands.data valid

/-- An entry before and after block `b` has been changed and marked. -/
structure Touched (b : Nat) (e e' : CacheEntry) : Prop where
  block : e'.block = e.block
  valid : e'.valid = e.valid
  dirty : e'.dirty = true → e.dirty = true ∨ e.block = b

theorem setData_entry (i j : Fin 64) (f : Block → Block) : Touched b (c.entry j) ((c.setData i f).entry j) ∧ (c.setData i f).disk = c.disk := by
  refine ⟨?_, rfl⟩
  unfold Cache.setData
  dsimp only
  by_cases other : j = i
  · subst other
    rw [Function.update_self]
    exact ⟨rfl, rfl, .inl⟩
  · rw [Function.update_of_ne other]
    exact ⟨rfl, rfl, .inl⟩

theorem cacheMarkDirty_entry (j : Fin 64) : Touched b (c.entry j) ((c.cacheMarkDirty b 0).entry j) ∧ (c.cacheMarkDirty b 0).disk = c.disk := by
  unfold Cache.cacheMarkDirty
  split
  · next k found =>
      refine ⟨?_, rfl⟩
      dsimp only
      by_cases other : j = k
      · subst other
        rw [Function.update_self]
        exact ⟨rfl, rfl, fun _ => .inr (lookup_holds found).2⟩
      · rw [Function.update_of_ne other]
        exact ⟨rfl, rfl, .inl⟩
  · exact ⟨⟨rfl, rfl, .inl⟩, rfl⟩

theorem store_entry (pointer : Option (Fin 64)) (f : Block → Block) (j : Fin 64) :
    Touched b (d.cache.entry j) ((d.store pointer b 0 f).cache.entry j) ∧ (d.store pointer b 0 f).cache.disk = d.cache.disk := by
  cases pointer with
  | none => exact ⟨⟨rfl, rfl, .inl⟩, rfl⟩
  | some i =>
      obtain ⟨first, disk⟩ := setData_entry (b := b) (c := d.cache) i j f
      obtain ⟨second, disk'⟩ := cacheMarkDirty_entry (b := b) (c := d.cache.setData i f) j
      refine ⟨⟨second.block.trans first.block, second.valid.trans first.valid, fun dirty => ?_⟩, disk'.trans disk⟩
      rcases second.dirty dirty with old | here
      · exact first.dirty old
      · exact .inr (first.block.symm.trans here)

section Miss
variable (stands : Stands d.cache L) (none : d.cache.cacheLookup b 0 = none)
include stands none

theorem Stands.victim_lost {after : Cache} (dirty : (d.cache.entry d.cache.next).dirty = true)
    (entries : ∀ j, Touched b ((d.replace b 0 out ok).cache.entry j) (after.entry j)) (disk : after.disk = (d.replace b 0 out ok).cache.disk)
    {L' : Nat → Block} (same : L' (d.cache.entry d.cache.next).block = L (d.cache.entry d.cache.next).block)
    (kept : Kept after L' (d.cache.entry d.cache.next).block) :
    out.getD (d.cache.entry d.cache.next).data = (d.cache.entry d.cache.next).data := by
  have valid := stands.dirty _ dirty
  rcases kept with onDisk | ⟨j, valid', dirty', block, -⟩
  · rw [disk, replace_eq, same, ← stands.data valid] at onDisk
    dsimp only at onDisk
    unfold diskAfter at onDisk
    rwa [if_pos dirty, Function.update_self] at onDisk
  · exfalso
    have touched := entries j
    rw [touched.valid] at valid'
    rw [touched.block] at block
    have before := touched.dirty dirty'
    rw [replace_eq] at valid' block before
    dsimp only at valid' block before
    by_cases here : j = d.cache.next
    · rw [here, Function.update_self] at block
      exact stands.absent none valid block.symm
    · rw [Function.update_of_ne here] at valid' block before
      exact here (stands.unique valid' valid block)

omit stands in
theorem missed_ok (answer : AnswerOk d L b out ok) : ok = true := by
  cases ok with
  | true => rfl
  | false =>
      unfold AnswerOk at answer
      dsimp only at answer
      rw [if_pos (readFails_iff.mpr ⟨none, rfl⟩)] at answer
      unfold Drive.cacheGet at answer
      rw [none] at answer
      cases answer.1

omit stands in
theorem cacheGet_missed : d.cacheGet b 0 out ok = (some d.cache.next, d.replace b 0 out ok) := by
  unfold Drive.cacheGet
  rw [none]

end Miss

theorem Stands.opOk_iff {op : Op} (stands : Stands d.cache L) : OpOk d L op ↔ Quiet d.cache op := by
  constructor
  · intro ok
    cases op with
    | get b out ok' =>
        intro none
        refine ⟨missed_ok none ok.answer, fun dirty => ?_⟩
        have kept := ok.kept (d.cache.entry d.cache.next).block
        change Kept (d.cacheGet b 0 out ok').2.cache L _ at kept
        rw [cacheGet_missed none] at kept
        exact stands.victim_lost none dirty (fun j => ⟨rfl, rfl, .inl⟩) rfl rfl kept
    | modify b f out ok' =>
        intro none
        have read := missed_ok none ok.answer
        refine ⟨read, fun dirty => ?_⟩
        have kept := ok.kept (d.cache.entry d.cache.next).block
        change Kept ((d.cacheGet b 0 out ok').2.store (d.cacheGet b 0 out ok').1 b 0 f).cache
          (if d.readFails b 0 ok' = true then L else Function.update L b (f (L b))) _ at kept
        rw [if_neg (not_readFails fun _ => read), cacheGet_missed none] at kept
        have other := stands.absent none (stands.dirty _ dirty)
        exact stands.victim_lost none dirty (fun j => (store_entry _ f j).1) (store_entry _ f d.cache.next).2
          (Function.update_of_ne other _ _) kept
    | flush outs =>
        intro i dirty
        have valid := stands.dirty i dirty
        have kept := ok.kept (d.cache.entry i).block
        change Kept ((List.finRange 64).foldl (Drive.flushEntry outs) d).cache L _ at kept
        rcases kept with onDisk | ⟨j, valid', dirty', -, -⟩
        · rwa [flushList_written (fun i j => stands.unique) (List.nodup_finRange 64) (List.mem_finRange i) valid dirty,
            ← stands.data valid] at onDisk
        · obtain ⟨flushed, cleaned⟩ := flushList_entry d outs (List.finRange 64) j
          rw [cleaned (List.mem_finRange j) (flushed.valid.symm.trans valid')] at dirty'
          cases dirty'
  · intro quiet
    refine ⟨?_, stands.calls op, fun b => (stands.step quiet).kept b⟩
    cases op with
    | get b out ok => exact stands.answer quiet
    | modify b f out ok => exact stands.answer quiet
    | flush outs => trivial

def Throughout (P : Drive → (Nat → Block) → Op → Prop) : List Op → Drive → (Nat → Block) → Prop
  | [], _, _ => True
  | op :: ops, d, L => P d L op ∧ Throughout P ops (op.run d) (op.apply d L)

theorem Stands.throughout {ops : List Op} (stands : Stands d.cache L) :
    Throughout OpOk ops d L ↔ Throughout (fun d _ op => Quiet d.cache op) ops d L := by
  induction ops generalizing d L with
  | nil => exact Iff.rfl
  | cons op ops ih =>
      unfold Throughout
      rw [stands.opOk_iff]
      exact and_congr_right fun quiet => ih (stands.step quiet)

section Failing
variable (disk : Disk) (next : Fin 64)

def Drive.empty : Drive := ⟨{ Cache.boot disk with next := next }, []⟩

theorem drive_empty : Stands (Drive.empty disk next).cache disk.block := stands_empty fun _ => rfl

/-- In a run from an empty cache every operation does what is promised if and only if every transfer that fails is without consequence:
no read fails, and a failing write leaves what was to be written. -/
theorem failing_transfers_iff (ops : List Op) :
    Throughout OpOk ops (Drive.empty disk next) disk.block ↔
    Throughout (fun d _ op => Quiet d.cache op) ops (Drive.empty disk next) disk.block :=
  (drive_empty disk next).throughout

end Failing

/-- The first read fails. -/
theorem failing_read_answered : ¬Throughout OpOk [.get 7 none false] (Drive.empty ⟨fun _ => .zero⟩ 0) fun _ => .zero := by
  rintro ⟨ok, -⟩
  cases ok.answer.1

/-- The operation with the outcomes of its transfers. -/
def ideal : CacheOp → Op
  | .get block => .get block none true
  | .modify block f => .modify block f none true
  | .flush => .flush fun _ => none

section Ideal
variable {calls : List (Nat × Block)} {op : CacheOp}

theorem ideal_cacheGet (c : Cache) (calls : List (Nat × Block)) (b : Nat) : ∃ calls', (Drive.mk c calls).cacheGet b 0 none true = (some (c.cacheGet b 0).1, ⟨(c.cacheGet b 0).2, calls'⟩) := by
  unfold Drive.cacheGet Cache.cacheGet
  dsimp only
  cases c.cacheLookup b 0 with
  | some i => exact ⟨calls, rfl⟩
  | none =>
      unfold Drive.replace Cache.replace
      dsimp only
      by_cases dirty : (c.entry c.next).dirty = true
      · simp only [if_pos dirty]
        exact ⟨_, rfl⟩
      · simp only [if_neg dirty]
        exact ⟨_, rfl⟩

theorem ideal_flushEntry (c : Cache) (calls : List (Nat × Block)) (i : Fin 64) : ∃ calls', (Drive.mk c calls).flushEntry (fun _ => none) i = ⟨c.flushEntry i, calls'⟩ := by
  unfold Drive.flushEntry Cache.flushEntry
  dsimp only
  split
  · exact ⟨_, rfl⟩
  · exact ⟨_, rfl⟩

theorem ideal_flushList (c : Cache) (calls : List (Nat × Block)) (xs : List (Fin 64)) :
    ∃ calls', xs.foldl (Drive.flushEntry fun _ => none) (Drive.mk c calls) = ⟨xs.foldl Cache.flushEntry c, calls'⟩ := by
  induction xs generalizing c calls with
  | nil => exact ⟨calls, rfl⟩
  | cons i xs ih =>
      obtain ⟨calls₁, first⟩ := ideal_flushEntry c calls i
      rw [List.foldl_cons, List.foldl_cons, first]
      exact ih _ _

theorem ideal_cleaned {xs : List (Fin 64)} (member : i ∈ xs) (valid : ((xs.foldl Cache.flushEntry c).entry i).valid = true) :
    ((xs.foldl Cache.flushEntry c).entry i).dirty = false := by
  obtain ⟨calls, eq⟩ := ideal_flushList c [] xs
  obtain ⟨flushed, cleaned⟩ := flushList_entry ⟨c, []⟩ (fun _ => none) xs i
  rw [eq] at flushed cleaned
  exact cleaned member (flushed.valid.symm.trans valid)

theorem ideal_run : ((ideal op).run ⟨c, calls⟩).cache = op.run c := by
  cases op with
  | get b =>
      obtain ⟨calls', got⟩ := ideal_cacheGet c calls b
      exact congrArg (fun r => r.2.cache) got
  | modify b f =>
      obtain ⟨calls', got⟩ := ideal_cacheGet c calls b
      exact congrArg (fun r => (r.2.store r.1 b 0 f).cache) got
  | flush =>
      obtain ⟨calls', flushed⟩ := ideal_flushList c calls (List.finRange 64)
      change ((List.finRange 64).foldl (Drive.flushEntry fun _ => none) ⟨c, calls⟩).cache = (List.finRange 64).foldl Cache.flushEntry c
      rw [flushed]

theorem ideal_quiet : Quiet c (ideal op) := by
  cases op with
  | get b => exact fun _ => ⟨rfl, fun _ => rfl⟩
  | modify b f => exact fun _ => ⟨rfl, fun _ => rfl⟩
  | flush => exact fun _ _ => rfl

theorem ideal_apply : (ideal op).apply d L = op.apply L := by
  cases op with
  | modify b f => exact if_neg (not_readFails fun _ => rfl)
  | get b => rfl
  | flush => rfl

theorem Stands.run (stands : Stands c L) (op : CacheOp) : Stands (op.run c) (op.apply L) := by
  have step : Stands ((ideal op).run ⟨c, []⟩).cache _ := Stands.step stands ideal_quiet
  rwa [ideal_run, ideal_apply] at step

theorem Stands.runs (stands : Stands c L) (ops : List CacheOp) : Stands (ops.foldl CacheOp.run c) (ops.foldl CacheOp.apply L) := by
  induction ops generalizing c L with
  | nil => exact stands
  | cons op ops ih => exact ih (stands.run op)

end Ideal

def cached (c : Cache) (b : Nat) : Block :=
  let r := c.cacheGet b 0
  (r.2.entry r.1).data

theorem Stands.cached (stands : Stands c L) (b : Nat) : cached c b = L b := by
  obtain ⟨i, got⟩ : ∃ i, Got ⟨c, []⟩ L b ((Drive.mk c []).cacheGet b 0 none true) i :=
    Stands.cacheGet stands fun _ => ⟨rfl, fun _ => rfl⟩
  obtain ⟨calls, eq⟩ := ideal_cacheGet c [] b
  rw [eq] at got
  have pointer := Option.some.inj got.pointer
  have data := got.stands.data got.valid
  rw [got.block, ← pointer] at data
  exact data

theorem Stands.flushed (stands : Stands c L) (b : Nat) : c.cacheFlushAll.disk b = L b := by
  have after : Stands c.cacheFlushAll L := stands.run .flush
  rcases after.kept b with onDisk | ⟨i, valid, dirty, -, -⟩
  · exact onDisk
  · unfold Cache.cacheFlushAll at valid dirty
    rw [ideal_cleaned (List.mem_finRange i) valid] at dirty
    cases dirty

/-- The operation changes no block but this one. -/
def CacheOp.On (b : Nat) : CacheOp → Prop
  | .get b' | .modify b' _ => b' = b
  | .flush => False

theorem apply_other {op : CacheOp} (other : ¬CacheOp.On b op) : op.apply L b = L b := by
  cases op with
  | modify b' f => exact Function.update_of_ne (Ne.symm other) _ _
  | get b' => rfl
  | flush => rfl

/-- Cache and disk are a store of blocks whose contents are `L`. -/
structure IsStore (c : Cache) (L : Nat → Block) : Prop where
  unique : ∀ i j, (c.entry i).valid = true → (c.entry j).valid = true → (c.entry i).block = (c.entry j).block → i = j
  clean : ∀ i, (c.entry i).valid = true → (c.entry i).dirty = false → (c.entry i).data = c.disk (c.entry i).block
  read : ∀ b, cached c b = L b
  frame : ∀ (op : CacheOp) b, ¬CacheOp.On b op → cached (op.run c) b = cached c b
  flushed : ∀ b, c.cacheFlushAll.disk b = L b

/-- Without failures the cache is a store of blocks, in every state of every run from an empty cache. -/
theorem cache_isStore (disk : Disk) (next : Fin 64) (ops : List CacheOp) :
    IsStore (ops.foldl CacheOp.run { Cache.boot disk with next := next }) (ops.foldl CacheOp.apply disk.block) := by
  have stands : Stands { Cache.boot disk with next := next } disk.block := stands_empty fun _ => rfl
  have after := stands.runs ops
  refine ⟨fun i j => after.unique, fun i valid clean => ?_, after.cached, fun op b other => ?_, after.flushed⟩
  · exact after.represents.clean (lines_valid valid) clean
  · rw [(after.run op).cached b, after.cached b, apply_other other]

end SwiftBSD.Proof.Fs
