import SwiftBSD.Mm.PmmInit
import SwiftBSD.Proof.Mm.Boot
import SwiftBSD.Proof.Mm.Count
import SwiftBSD.Proof.Mm.Unmap

namespace SwiftBSD.Proof.Mm
open Lib SwiftBSD.Mm

variable {m s t u : Machine} {tags : List MbootTag} {bssEnd total total' : UInt64} {e : MmapEntry} {es : List MmapEntry} {p g : Nat}

def Covers (e : MmapEntry) (p : Nat) : Prop := e.firstPage ≤ p ∧ p < e.endPage

instance (e : MmapEntry) (p : Nat) : Decidable (Covers e p) := inferInstanceAs (Decidable (_ ∧ _))

def counted (es : List MmapEntry) : Nat := (es.map fun e => e.endPage - e.firstPage).sum

/-- The bitmap and the count after the entries `es`. -/
structure ReadSoFar (es : List MmapEntry) (m : Machine) : Prop where
  bitmap : ∀ p, m.bitmap p = false ↔ ∃ e ∈ es, Covers e p
  count : m.freePageCount = .ofNat (counted es)
  last : ∀ e ∈ es, e.endPage ≤ m.lastPhysPage

def isAvailable (e : MmapEntry) : Bool := decide (e.type = 1)

theorem clearPages_run {first n : Nat} (run : (forRange clearPage first n).run s = some ((), t)) :
    (∀ p, t.bitmap p = false ↔ s.bitmap p = false ∨ first ≤ p ∧ p < first + n) ∧ t.freePageCount = s.freePageCount + .ofNat n ∧
      t.lastPhysPage = s.lastPhysPage := by
  have result := forRange_run (fun j (u : Machine) => (∀ p, u.bitmap p = false ↔ s.bitmap p = false ∨ first ≤ p ∧ p < j) ∧
    u.freePageCount = s.freePageCount + .ofNat (j - first) ∧ u.lastPhysPage = s.lastPhysPage) ?_ ?_ run
  · obtain ⟨bitmap, count, last⟩ := result
    rw [Nat.add_sub_cancel_left] at count
    exact ⟨bitmap, count, last⟩
  · refine ⟨fun p => ?_, ?_, rfl⟩
    · rw [or_iff_left (by omega)]
    · rw [Nat.sub_self]
      simp
  · rintro j u v lower - ⟨bitmap, count, last⟩ step
    cases step
    refine ⟨fun p => ?_, ?_, last⟩
    · dsimp only
      rw [Function.update_apply]
      split
      · next here =>
          subst here
          simp only [true_iff]
          exact .inr (by omega)
      · next other =>
          rw [bitmap]
          refine or_congr_right ?_
          omega
    · dsimp only
      have next : j + 1 - first = (j - first) + 1 := by omega
      have sum : UInt64.ofNat (j - first + 1) = UInt64.ofNat (j - first) + 1 := UInt64.ofNat_add _ 1
      rw [count, next, sum, UInt64.add_assoc]

theorem addEntry_run (so_far : ReadSoFar es s) (run : (addEntry total e).run s = some (total', t)) :
    ReadSoFar (es ++ [e].filter isAvailable) t := by
  unfold addEntry at run
  split at run
  · next type =>
      obtain ⟨_, u, clear, run⟩ := run_bind_eq_some.mp run
      obtain ⟨_, v, grown, run⟩ := run_bind_eq_some.mp run
      cases grown
      obtain ⟨-, rfl⟩ := pure_run run
      obtain ⟨bitmap, count, last⟩ := clearPages_run clear
      have one : [e].filter isAvailable = [e] := by simp [isAvailable, type]
      rw [one]
      refine ⟨fun p => ?_, ?_, fun e' member => ?_⟩
      · dsimp only
        rw [bitmap, so_far.bitmap]
        simp only [List.mem_append, List.mem_singleton, or_and_right, exists_or, exists_eq_left]
        refine or_congr_right ?_
        unfold Covers
        omega
      · dsimp only
        have sum : counted (es ++ [e]) = counted es + (e.endPage - e.firstPage) := by simp [counted]
        rw [count, so_far.count, sum]
        exact (UInt64.ofNat_add _ _).symm
      · dsimp only
        rw [last]
        rcases List.mem_append.mp member with old | new
        · have := so_far.last e' old
          omega
        · obtain rfl := List.mem_singleton.mp new
          omega
  · next other =>
      obtain ⟨-, rfl⟩ := pure_run run
      have none : [e].filter isAvailable = [] := by simp [isAvailable, other]
      rw [none, List.append_nil]
      exact so_far

theorem addEntries_run {more : List MmapEntry} (so_far : ReadSoFar es s) (run : (more.foldlM addEntry total).run s = some (total', t)) :
    ReadSoFar (es ++ more.filter isAvailable) t := by
  induction more generalizing es s total with
  | nil =>
      obtain ⟨-, rfl⟩ := pure_run run
      rw [List.filter_nil, List.append_nil]
      exact so_far
  | cons e more ih =>
      rw [List.foldlM_cons] at run
      obtain ⟨total₁, u, first, run⟩ := run_bind_eq_some.mp run
      have rest := ih (addEntry_run so_far first) run
      rw [List.append_assoc, ← List.filter_append] at rest
      exact rest

theorem readTags_run (so_far : ReadSoFar es s) (run : (readTags total tags).run s = some (total', t)) :
    ReadSoFar (es ++ available tags) t := by
  induction tags generalizing es s total with
  | nil => cases run
  | cons tag tags ih =>
      unfold readTags at run
      unfold available mapEntries
      split at run
      · next stop =>
          obtain ⟨-, rfl⟩ := pure_run run
          rw [if_pos stop, List.filter_nil, List.append_nil]
          exact so_far
      next more =>
      rw [if_neg more]
      split at run
      · next map =>
          rw [if_pos map]
          obtain ⟨total₁, u, added, run⟩ := run_bind_eq_some.mp run
          unfold addMap at added
          split at added
          · cases added
          have rest := ih (addEntries_run so_far added) run
          rw [List.append_assoc] at rest
          rw [List.filter_append]
          exact rest
      · next other =>
          rw [if_neg other]
          exact ih so_far run

/-- A page of the memory map behind the kernel. -/
def Initial (tags : List MbootTag) (bssEnd : UInt64) (p : Nat) : Prop := kernelEndPage bssEnd ≤ p ∧ ∃ e ∈ available tags, Covers e p

instance (tags : List MbootTag) (bssEnd : UInt64) : DecidablePred (Initial tags bssEnd) := fun _ =>
  inferInstanceAs (Decidable (_ ∧ _))

def coveredBelow (es : List MmapEntry) (n : Nat) : Finset Nat := (Finset.range n).filter fun p => ∃ e ∈ es, Covers e p

structure Booted (tags : List MbootTag) (bssEnd : UInt64) (s : Machine) : Prop where
  bitmap : ∀ p, s.bitmap p = false ↔ Initial tags bssEnd p
  count : s.freePageCount = .ofNat (counted (available tags)) - .ofNat (coveredBelow (available tags) (kernelEndPage bssEnd)).card
  last : ∀ p, s.bitmap p = false → p < s.lastPhysPage
  kernel : kernelEndPage bssEnd ≤ maxPages

theorem mem_coveredBelow {n : Nat} : p ∈ coveredBelow es n ↔ p < n ∧ ∃ e ∈ es, Covers e p := by
  unfold coveredBelow
  rw [Finset.mem_filter, Finset.mem_range]

theorem coveredBelow_succ (es : List MmapEntry) (n : Nat) : (coveredBelow es (n + 1)).card =
    (coveredBelow es n).card + if ∃ e ∈ es, Covers e n then 1 else 0 := by
  unfold coveredBelow
  rw [Finset.range_add_one, Finset.filter_insert]
  split
  · rw [Finset.card_insert_of_notMem (by simp)]
  · rfl

theorem reservePages_run {n : Nat} (run : (forRange reservePage 0 n).run s = some ((), t)) (es : List MmapEntry)
    (so_far : ReadSoFar es s) : (∀ p, t.bitmap p = false ↔ n ≤ p ∧ ∃ e ∈ es, Covers e p) ∧
      t.freePageCount = .ofNat (counted es) - .ofNat (coveredBelow es n).card ∧ t.lastPhysPage = s.lastPhysPage ∧ n ≤ maxPages := by
  have result := forRange_run (fun j (u : Machine) => (∀ p, u.bitmap p = false ↔ j ≤ p ∧ ∃ e ∈ es, Covers e p) ∧
    u.freePageCount = .ofNat (counted es) - .ofNat (coveredBelow es j).card ∧ u.lastPhysPage = s.lastPhysPage ∧ j ≤ maxPages) ?_ ?_ run
  · rwa [Nat.zero_add] at result
  · refine ⟨fun p => ?_, ?_, rfl, Nat.zero_le _⟩
    · rw [so_far.bitmap, and_iff_right (Nat.zero_le p)]
    · have none : (coveredBelow es 0).card = 0 := rfl
      rw [so_far.count, none]
      simp
  · rintro j u v - - ⟨bitmap, count, last, -⟩ step
    unfold reservePage at step
    split at step
    · cases step
    next small =>
    change (get >>= _ : MmM Unit).run u = _ at step
    rw [run_bind_some (x := get) rfl] at step
    have here := bitmap j
    rw [and_iff_right (Nat.le_refl j)] at here
    have card := coveredBelow_succ es j
    split at step
    · next clear =>
        cases step
        have covered : ∃ e ∈ es, Covers e j := here.mp (by simpa using clear)
        rw [if_pos covered] at card
        refine ⟨fun p => ?_, ?_, last, by omega⟩
        · dsimp only
          rw [Function.update_apply]
          split
          · next same =>
              subst same
              simp
          · next other =>
              rw [bitmap]
              refine and_congr_left fun _ => ?_
              omega
        · dsimp only
          have sum : UInt64.ofNat ((coveredBelow es j).card + 1) = UInt64.ofNat (coveredBelow es j).card + 1 := UInt64.ofNat_add _ 1
          rw [count, card, sum]
          grind
    · next set_ =>
        obtain ⟨-, rfl⟩ := pure_run step
        have taken : u.bitmap j = true := by simpa using set_
        have uncovered : ¬∃ e ∈ es, Covers e j := by
          intro covered
          rw [here.mpr covered] at taken
          cases taken
        rw [if_neg uncovered] at card
        change _ = (coveredBelow es j).card at card
        refine ⟨fun p => ?_, by rw [count, card], last, by omega⟩
        rw [bitmap]
        constructor
        · rintro ⟨lower, covered⟩
          refine ⟨Nat.lt_of_le_of_ne lower ?_, covered⟩
          rintro rfl
          exact uncovered covered
        · rintro ⟨lower, covered⟩
          exact ⟨by omega, covered⟩

theorem pmmInit_run (run : (pmmInit bssEnd tags).run m = some (total, s)) : Booted tags bssEnd s := by
  unfold pmmInit at run
  obtain ⟨_, s₁, blank, run⟩ := run_bind_eq_some.mp run
  cases blank
  obtain ⟨total₁, s₂, read, run⟩ := run_bind_eq_some.mp run
  obtain ⟨_, s₃, reserve, run⟩ := run_bind_eq_some.mp run
  obtain ⟨-, rfl⟩ := pure_run run
  have nothing : ReadSoFar [] { m with bitmap := fun _ => true, lastPhysPage := 0, freePageCount := 0, bounded := Nat.zero_le _ } :=
    ⟨fun p => by simp, rfl, fun e none => by cases none⟩
  have all := readTags_run nothing read
  rw [List.nil_append] at all
  obtain ⟨bitmap, count, last, kernel⟩ := reservePages_run reserve _ all
  refine ⟨bitmap, count, fun p free => ?_, kernel⟩
  obtain ⟨-, e, member, -, upper⟩ := (bitmap p).mp free
  rw [last]
  exact upper.trans_le (all.last e member)

def clearBits (m : Machine) : Finset Nat := (Finset.range maxPages).filter fun p => m.bitmap p = false

theorem pageAlloc_lowest (below : p < t.lastPhysPage) (clear : t.bitmap p = false) (first : ∀ i < p, t.bitmap i = true) :
    pageAlloc.run t = some (addrOf p, { t with bitmap := Function.update t.bitmap p true, freePageCount := t.freePageCount - 1 }) := by
  unfold pageAlloc
  rw [run_bind_some (x := get) rfl]
  cases found : firstFrom (fun i => !t.bitmap i) 0 t.lastPhysPage with
  | none =>
      have taken := firstFrom_none.mp found p (Nat.zero_le p) (by rw [Nat.zero_add]; exact below)
      simp [clear] at taken
  | some g =>
      obtain ⟨-, -, free, before⟩ := firstFrom_some found
      have same : g = p := by
        rcases Nat.lt_trichotomy g p with less | same | more
        · rw [first g less] at free
          cases free
        · exact same
        · have taken := before p (Nat.zero_le p) more
          rw [clear] at taken
          cases taken
      rw [same]
      rfl

structure PmmInv (s : Machine) (live : List UInt64) (t : Machine) : Prop where
  last : t.lastPhysPage = s.lastPhysPage
  nodup : live.Nodup
  owned : ∀ a ∈ live, ∃ g, a = addrOf g ∧ s.bitmap g = false
  bitmap : ∀ p, t.bitmap p = false ↔ s.bitmap p = false ∧ addrOf p ∉ live
  card : (clearBits t).card + live.length = (clearBits s).card
  count : t.freePageCount = s.freePageCount - .ofNat live.length

theorem Booted.bound (booted : Booted tags bssEnd s) (free : s.bitmap p = false) : p < maxPages :=
  (booted.last p free).trans_le s.bounded

theorem kernelEndPage_pos (small : bssEnd.toNat + kheapSize.toNat < 2 ^ 29) : 0 < kernelEndPage bssEnd := by
  unfold kernelEndPage
  have heap : kheapSize.toNat = 1048576 := rfl
  have sum : (bssEnd + kheapSize + 4095).toNat = bssEnd.toNat + kheapSize.toNat + 4095 := by
    rw [UInt64.toNat_add, UInt64.toNat_add]
    change ((_ + _) % 2 ^ 64 + 4095) % 2 ^ 64 = _
    omega
  rw [UInt64.toNat_div, sum]
  change 0 < _ / 4096
  omega

theorem addrOf_inj {h : Nat} (hg : g ≤ maxPages) (hh : h ≤ maxPages) (same : addrOf g = addrOf h) : g = h := by
  have values := congrArg UInt64.toNat same
  rw [toNat_addrOf hg, toNat_addrOf hh] at values
  omega

theorem mem_clearBits {m : Machine} : p ∈ clearBits m ↔ p < maxPages ∧ m.bitmap p = false := by
  unfold clearBits
  rw [Finset.mem_filter, Finset.mem_range]

theorem clearBits_set (small : g < maxPages) (free : t.bitmap g = false) (bitmap : u.bitmap = Function.update t.bitmap g true) :
    (clearBits u).card + 1 = (clearBits t).card := by
  have erased : clearBits u = (clearBits t).erase g := by
    ext i
    rw [Finset.mem_erase, mem_clearBits, mem_clearBits, bitmap, Function.update_apply]
    by_cases same : i = g
    · simp [same]
    · simp [same]
  have member : g ∈ clearBits t := mem_clearBits.mpr ⟨small, free⟩
  rw [erased, Finset.card_erase_of_mem member]
  have := Finset.card_pos.mpr ⟨g, member⟩
  omega

section Run
variable (booted : Booted tags bssEnd s) (positive : 0 < kernelEndPage bssEnd)
include booted positive

theorem Booted.zero : s.bitmap 0 = true := by
  by_contra free
  have initial := (booted.bitmap 0).mp (by simpa using free)
  exact absurd initial.1 (by omega)

theorem pmmRun_inv {live : List UInt64} (run : PmmRun s live t) : PmmInv s live t := by
  induction run with
  | start =>
      refine ⟨rfl, List.nodup_nil, fun a none => (by cases none), fun p => ?_, Nat.add_zero _, ?_⟩
      · rw [and_iff_left List.not_mem_nil]
      · simp
  | @alloc live t u a before run ih =>
      cases pageAlloc_alloc run with
      | none empty =>
          rw [if_pos rfl]
          exact ih
      | @took g small free first =>
          obtain ⟨initial, unowned⟩ := (ih.bitmap g).mp free
          have bound := booted.bound initial
          have value : (addrOf g).toNat = 4096 * g := toNat_addrOf bound.le
          have nonzero : addrOf g ≠ 0 := by
            intro zero
            have values := congrArg UInt64.toNat zero
            rw [value] at values
            change 4096 * g = 0 at values
            obtain rfl : g = 0 := by omega
            rw [booted.zero positive] at initial
            cases initial
          rw [if_neg nonzero]
          refine ⟨ih.last, List.nodup_cons.mpr ⟨unowned, ih.nodup⟩, fun a member => ?_, fun p => ?_, ?_, ?_⟩
          · rcases List.mem_cons.mp member with rfl | old
            · exact ⟨g, rfl, initial⟩
            · exact ih.owned a old
          · dsimp only
            rw [Function.update_apply]
            split
            · next same =>
                subst same
                simp
            · next other =>
                rw [ih.bitmap, List.mem_cons, not_or]
                refine and_congr_right fun free => ?_
                rw [and_iff_right]
                exact fun same => other (addrOf_inj (booted.bound free).le bound.le same)
          · have fewer := clearBits_set (u := { t with bitmap := Function.update t.bitmap g true, freePageCount := t.freePageCount - 1 })
              bound free rfl
            have := ih.card
            rw [List.length_cons]
            omega
          · dsimp only
            have sum : UInt64.ofNat (live.length + 1) = UInt64.ofNat live.length + 1 := UInt64.ofNat_add _ 1
            rw [ih.count, List.length_cons, sum]
            grind
  | @free live t u a before owned run ih =>
      obtain ⟨g, rfl, initial⟩ := ih.owned a owned
      have bound := booted.bound initial
      have taken : t.bitmap g = true := by
        by_contra free
        exact ((ih.bitmap g).mp (by simpa using free)).2 owned
      unfold pageFree at run
      rw [run_bind_some (x := get) rfl] at run
      dsimp only at run
      rw [frameOf_addrOf bound.le, if_neg (by omega), if_pos taken] at run
      cases run
      have length := List.length_erase_of_mem owned
      have some_ := List.length_pos_of_mem owned
      refine ⟨ih.last, ih.nodup.erase _, fun a member => ih.owned a (List.mem_of_mem_erase member), fun p => ?_, ?_, ?_⟩
      · dsimp only
        rw [Function.update_apply, ih.nodup.mem_erase_iff]
        split
        · next same =>
            subst same
            simp [initial]
        · next other =>
            rw [ih.bitmap]
            refine and_congr_right fun free => not_congr ?_
            rw [and_iff_right]
            exact fun same => other (addrOf_inj (booted.bound free).le bound.le same)
      · have more := clearBits_set (t := { t with bitmap := Function.update t.bitmap g false, freePageCount := t.freePageCount + 1 })
          (u := t) bound (by dsimp only; rw [Function.update_self]) (by dsimp only; rw [Function.update_idem, ← taken, Function.update_eq_self])
        have := ih.card
        omega
      · dsimp only
        have whole : live.length = (live.erase (addrOf g)).length + 1 := by omega
        have sum : UInt64.ofNat live.length = UInt64.ofNat (live.erase (addrOf g)).length + 1 := by
          rw [whole]
          exact UInt64.ofNat_add _ 1
        rw [ih.count, sum]
        grind

end Run

def Apart (e f : MmapEntry) : Prop := e.addr.toNat + e.len.toNat ≤ f.addr.toNat ∨ f.addr.toNat + f.len.toNat ≤ e.addr.toNat

/-- The rounding up of the address does not go around. -/
def Rounds (e : MmapEntry) : Prop := e.addr.toNat + 4095 < 2 ^ 64

theorem firstPage_eq (rounds : Rounds e) : e.firstPage = (e.addr.toNat + 4095) / 4096 := by
  unfold Rounds at rounds
  unfold MmapEntry.firstPage
  rw [UInt64.toNat_div, UInt64.toNat_add]
  change (_ + 4095) % 2 ^ 64 / 4096 = _
  rw [Nat.mod_eq_of_lt rounds]

theorem endPage_eq (whole : e.addr.toNat + e.len.toNat < 2 ^ 64) : e.endPage = min ((e.addr.toNat + e.len.toNat) / 4096) maxPages := by
  unfold MmapEntry.endPage
  rw [UInt64.toNat_div, UInt64.toNat_add, Nat.mod_eq_of_lt whole]
  rfl

theorem covers_around (whole : e.addr.toNat + e.len.toNat < 2 ^ 64) (around : ¬Rounds e) : e.firstPage = 0 ∧ e.endPage = maxPages := by
  unfold Rounds at around
  have bound := e.addr.toNat_lt
  constructor
  · unfold MmapEntry.firstPage
    rw [UInt64.toNat_div, UInt64.toNat_add]
    change (_ + 4095) % 2 ^ 64 / 4096 = 0
    omega
  · rw [endPage_eq whole]
    unfold maxPages
    omega

theorem Covers.inside (covers : Covers e p) (whole : e.addr.toNat + e.len.toNat < 2 ^ 64) (rounds : Rounds e) :
    e.addr.toNat ≤ 4096 * p ∧ 4096 * p + 4096 ≤ e.addr.toNat + e.len.toNat := by
  obtain ⟨lower, upper⟩ := covers
  rw [firstPage_eq rounds] at lower
  rw [endPage_eq whole] at upper
  omega

theorem covers_of_inside (small : p < maxPages) (whole : e.addr.toNat + e.len.toNat < 2 ^ 64) (lower : e.addr.toNat ≤ 4096 * p)
    (upper : 4096 * p + 4096 ≤ e.addr.toNat + e.len.toNat) : Rounds e ∧ Covers e p := by
  have rounds : Rounds e := by
    unfold Rounds
    unfold maxPages at small
    omega
  refine ⟨rounds, ?_, ?_⟩
  · rw [firstPage_eq rounds]
    omega
  · rw [endPage_eq whole]
    omega

theorem coveredBelow_cons (e : MmapEntry) (es : List MmapEntry) :
    coveredBelow (e :: es) maxPages = Finset.Ico e.firstPage e.endPage ∪ coveredBelow es maxPages := by
  ext p
  have bound : e.endPage ≤ maxPages := Nat.min_le_right _ _
  rw [Finset.mem_union, mem_coveredBelow, mem_coveredBelow, Finset.mem_Ico]
  simp only [List.mem_cons, or_and_right, exists_or, exists_eq_left]
  change _ ∧ (_ ≤ p ∧ p < _ ∨ _) ↔ _
  constructor
  · rintro ⟨small, here | there⟩
    · exact .inl here
    · exact .inr ⟨small, there⟩
  · rintro (here | ⟨small, there⟩)
    · exact ⟨by omega, .inl here⟩
    · exact ⟨small, .inr there⟩

theorem counted_eq (whole : ∀ e ∈ es, e.addr.toNat + e.len.toNat < 2 ^ 64) (rounds : ∀ e ∈ es, Rounds e) (apart : es.Pairwise Apart) :
    counted es = (coveredBelow es maxPages).card := by
  induction es with
  | nil =>
      have none : coveredBelow [] maxPages = ∅ := Finset.filter_eq_empty_iff.mpr (by simp)
      rw [none]
      rfl
  | cons e es ih =>
      obtain ⟨first, rest⟩ := List.pairwise_cons.mp apart
      have disjoint : Disjoint (Finset.Ico e.firstPage e.endPage) (coveredBelow es maxPages) := by
        refine Finset.disjoint_left.mpr fun p here there => ?_
        obtain ⟨lower, upper⟩ := Finset.mem_Ico.mp here
        obtain ⟨-, f, member, covers⟩ := mem_coveredBelow.mp there
        have mine := Covers.inside ⟨lower, upper⟩ (whole e (List.mem_cons_self ..)) (rounds e (List.mem_cons_self ..))
        have other := covers.inside (whole f (List.mem_cons_of_mem _ member)) (rounds f (List.mem_cons_of_mem _ member))
        rcases first f member with before | behind <;> omega
      have tail := ih (fun f member => whole f (List.mem_cons_of_mem _ member)) (fun f member => rounds f (List.mem_cons_of_mem _ member)) rest
      rw [coveredBelow_cons, Finset.card_union_of_disjoint disjoint, Nat.card_Ico, ← tail]
      simp [counted]

theorem Booted.split (booted : Booted tags bssEnd s) : (coveredBelow (available tags) maxPages).card =
    (coveredBelow (available tags) (kernelEndPage bssEnd)).card + (clearBits s).card := by
  have kernel := booted.kernel
  have union : coveredBelow (available tags) maxPages = coveredBelow (available tags) (kernelEndPage bssEnd) ∪ clearBits s := by
    ext p
    rw [Finset.mem_union, mem_clearBits, booted.bitmap, mem_coveredBelow, mem_coveredBelow]
    unfold Initial
    constructor
    · rintro ⟨small, covered⟩
      by_cases below : p < kernelEndPage bssEnd
      · exact .inl ⟨below, covered⟩
      · exact .inr ⟨small, by omega, covered⟩
    · rintro (⟨below, covered⟩ | ⟨small, -, covered⟩)
      · exact ⟨by omega, covered⟩
      · exact ⟨small, covered⟩
  have disjoint : Disjoint (coveredBelow (available tags) (kernelEndPage bssEnd)) (clearBits s) := by
    refine Finset.disjoint_left.mpr fun p here there => ?_
    have below := (mem_coveredBelow.mp here).1
    have free := (booted.bitmap p).mp (mem_clearBits.mp there).2
    exact absurd free.1 (by omega)
  rw [union, Finset.card_union_of_disjoint disjoint]

theorem ofNat_add_sub (a b : Nat) : UInt64.ofNat (a + b) - UInt64.ofNat a = UInt64.ofNat b := by
  have sum : UInt64.ofNat (a + b) = UInt64.ofNat a + UInt64.ofNat b := UInt64.ofNat_add a b
  rw [sum]
  grind

structure PmmGood (tags : List MbootTag) (bssEnd : UInt64) (live : List UInt64) (t : Machine) : Prop where
  count : t.freePageCount = .ofNat (clearBits t).card
  alloc : ∀ a u, pageAlloc.run t = some (a, u) → a ≠ 0 → a.toNat % 4096 = 0 ∧
    (∃ e ∈ available tags, e.addr.toNat ≤ a.toNat ∧ a.toNat + 4096 ≤ e.addr.toNat + e.len.toNat) ∧
    4096 * kernelEndPage bssEnd ≤ a.toNat ∧ a.toNat + 4096 ≤ 512 * 1024 * 1024 ∧
    t.bitmap (a.toNat / 4096) = false ∧ (∀ p < a.toNat / 4096, t.bitmap p = true) ∧ a ∉ live
  empty : ∀ u, pageAlloc.run t = some (0, u) → ∀ p < maxPages, t.bitmap p = true

structure WellFormed (tags : List MbootTag) : Prop where
  whole : ∀ e ∈ mapEntries tags, e.addr.toNat + e.len.toNat < 2 ^ 64
  apart : (mapEntries tags).Pairwise Apart
  small : (mapEntries tags).length < 2 ^ 32

section Promise
variable (booted : Booted tags bssEnd s)
include booted

theorem Booted.good (positive : 0 < kernelEndPage bssEnd) (count : s.freePageCount = .ofNat (clearBits s).card)
    (inside : ∀ p, s.bitmap p = false → ∃ e ∈ available tags, e.addr.toNat ≤ 4096 * p ∧ 4096 * p + 4096 ≤ e.addr.toNat + e.len.toNat)
    {live : List UInt64} (run : PmmRun s live t) : PmmGood tags bssEnd live t := by
  have inv := pmmRun_inv booted positive run
  refine ⟨?_, fun a u run nonzero => ?_, fun u run p small => ?_⟩
  · rw [inv.count, count, ← inv.card, Nat.add_comm]
    exact ofNat_add_sub _ _
  · cases pageAlloc_alloc run with
    | none empty => exact (nonzero rfl).elim
    | @took g small free first =>
        obtain ⟨initial, unowned⟩ := (inv.bitmap g).mp free
        have bound := booted.bound initial
        have value : (addrOf g).toNat = 4096 * g := toNat_addrOf bound.le
        have page : (addrOf g).toNat / 4096 = g := by omega
        have behind := ((booted.bitmap g).mp initial).1
        rw [page, value]
        unfold maxPages at bound
        exact ⟨by omega, inside g initial, by omega, by omega, free, first, unowned⟩
  · have empty : freeFrames t = ∅ := by
      unfold pageAlloc at run
      rw [run_bind_some (x := get) rfl] at run
      cases found : firstFrom (fun i => !t.bitmap i) 0 t.lastPhysPage with
      | none =>
          refine Finset.filter_eq_empty_iff.mpr fun i small => ?_
          have taken := firstFrom_none.mp found i (Nat.zero_le i) (by rw [Nat.zero_add]; exact Finset.mem_range.mp small)
          simpa using taken
      | some g =>
          -- page 0 belongs to the kernel
          obtain ⟨-, -, free, -⟩ := firstFrom_some found
          have initial := ((inv.bitmap g).mp (by simpa using free)).1
          have bound := booted.bound initial
          rw [found] at run
          have zero := (Prod.mk.inj (Option.some.inj run)).1
          have value := congrArg UInt64.toNat zero
          rw [toNat_addrOf bound.le] at value
          change 4096 * g = 0 at value
          obtain rfl : g = 0 := by omega
          rw [booted.zero positive] at initial
          cases initial
    by_contra free
    have clear : t.bitmap p = false := by simpa using free
    have below := booted.last p ((inv.bitmap p).mp clear).1
    refine Finset.eq_empty_iff_forall_notMem.mp empty p (Finset.mem_filter.mpr ⟨Finset.mem_range.mpr ?_, clear⟩)
    rw [inv.last]
    exact below

theorem Booted.lowest (clear : s.bitmap p = false) (first : ∀ i < p, s.bitmap i = true) : ∃ u, pageAlloc.run s = some (addrOf p, u) :=
  ⟨_, pageAlloc_lowest (booted.last p clear) clear first⟩

variable (well : WellFormed tags)
include well

omit booted in
theorem WellFormed.available_whole {e : MmapEntry} (member : e ∈ available tags) : e.addr.toNat + e.len.toNat < 2 ^ 64 :=
  well.whole e (List.mem_of_mem_filter member)

theorem Booted.good_of_rounds (positive : 0 < kernelEndPage bssEnd) (rounds : ∀ e ∈ available tags, Rounds e) {live : List UInt64}
    (run : PmmRun s live t) : PmmGood tags bssEnd live t := by
  refine booted.good positive ?_ (fun p free => ?_) run
  · rw [booted.count, counted_eq (fun e => well.available_whole) rounds (well.apart.filter _), booted.split]
    exact ofNat_add_sub _ _
  · obtain ⟨-, e, member, covers⟩ := (booted.bitmap p).mp free
    exact ⟨e, member, covers.inside (well.available_whole member) (rounds e member)⟩

omit booted in
theorem counted_lt : counted (available tags) < 2 ^ 64 := by
  have each : ∀ n ∈ (available tags).map fun e => e.endPage - e.firstPage, n ≤ maxPages := by
    intro n member
    obtain ⟨e, -, rfl⟩ := List.mem_map.mp member
    exact (Nat.sub_le _ _).trans (Nat.min_le_right _ _)
  have sum := List.sum_le_card_nsmul _ _ each
  have length : (available tags).length ≤ (mapEntries tags).length := List.length_filter_le _ _
  have small := well.small
  rw [List.length_map] at sum
  change _ ≤ (available tags).length * maxPages at sum
  unfold counted
  have product : (available tags).length * maxPages ≤ 2 ^ 32 * maxPages := Nat.mul_le_mul_right _ (by omega)
  have bound : 2 ^ 32 * maxPages < 2 ^ 64 := by decide
  omega

end Promise

theorem counted_two {e f : MmapEntry} (he : e ∈ es) (hf : f ∈ es) (other : e ≠ f) :
    (e.endPage - e.firstPage) + (f.endPage - f.firstPage) ≤ counted es := by
  induction es with
  | nil => cases he
  | cons h es ih =>
      have sum : counted (h :: es) = (h.endPage - h.firstPage) + counted es := by simp [counted]
      have single (x : MmapEntry) (member : x ∈ es) : x.endPage - x.firstPage ≤ counted es :=
        List.single_le_sum (by simp) _ (List.mem_map.mpr ⟨x, member, rfl⟩)
      rw [sum]
      rcases List.mem_cons.mp he with rfl | he' <;> rcases List.mem_cons.mp hf with rfl | hf'
      · exact (other rfl).elim
      · have := single f hf'
        omega
      · have := single e he'
        omega
      · have := ih he' hf'
        omega

/-- The allocator keeps its promise in every run if and only if no available region starts in the last 4095 bytes of the address
space; the exception is a kernel that leaves no page below 512 MB to such a region. -/
theorem pmm_good_iff (well : WellFormed tags) (kernel : bssEnd.toNat + kheapSize.toNat < 512 * 1024 * 1024)
    (run : (pmmInit bssEnd tags).run m = some (total, s)) :
    (∀ live t, PmmRun s live t → PmmGood tags bssEnd live t) ↔
      (∀ e ∈ available tags, e.addr.toNat + 4095 < 2 ^ 64) ∨
        kernelEndPage bssEnd = maxPages ∧ counted (available tags) = maxPages := by
  have booted := pmmInit_run run
  have positive := kernelEndPage_pos kernel
  have limit := booted.kernel
  constructor
  · intro good
    by_contra neither
    rw [not_or, not_forall] at neither
    obtain ⟨⟨e, bad⟩, rest⟩ := neither
    rw [Classical.not_imp] at bad
    obtain ⟨member, around⟩ := bad
    have ⟨first, stop⟩ := covers_around (well.available_whole member) around
    have all (p : Nat) (small : p < maxPages) : Covers e p := ⟨by omega, by omega⟩
    -- every page behind the kernel is free now
    have clear : (clearBits s).card = maxPages - kernelEndPage bssEnd := by
      have whole : clearBits s = Finset.Ico (kernelEndPage bssEnd) maxPages := by
        ext p
        rw [mem_clearBits, booted.bitmap, Finset.mem_Ico]
        constructor
        · rintro ⟨small, behind, -⟩
          exact ⟨behind, small⟩
        · rintro ⟨behind, small⟩
          exact ⟨small, behind, e, member, all p small⟩
      rw [whole, Nat.card_Ico]
    have below : (coveredBelow (available tags) (kernelEndPage bssEnd)).card = kernelEndPage bssEnd := by
      have whole : coveredBelow (available tags) (kernelEndPage bssEnd) = Finset.range (kernelEndPage bssEnd) := by
        ext p
        rw [mem_coveredBelow, Finset.mem_range]
        exact and_iff_left_of_imp fun small => ⟨e, member, all p (by omega)⟩
      rw [whole, Finset.card_range]
    have count := (good [] s .start).count
    rw [booted.count, below, clear] at count
    have exact_ : counted (available tags) = maxPages := by
      have bound := counted_lt well
      have sum : UInt64.ofNat (counted (available tags)) = UInt64.ofNat maxPages := by
        have total : maxPages = kernelEndPage bssEnd + (maxPages - kernelEndPage bssEnd) := by omega
        have split : UInt64.ofNat maxPages = UInt64.ofNat (kernelEndPage bssEnd) + UInt64.ofNat (maxPages - kernelEndPage bssEnd) := by
          rw [← UInt64.ofNat_add, ← total]
        rw [split, ← count]
        grind
      have value := congrArg UInt64.toNat sum
      rwa [UInt64.toNat_ofNat_of_lt' bound, UInt64.toNat_ofNat_of_lt' (by decide)] at value
    have room : kernelEndPage bssEnd < maxPages := Nat.lt_of_le_of_ne limit fun same => rest ⟨same, exact_⟩
    have lowest : s.bitmap (kernelEndPage bssEnd) = false := (booted.bitmap _).mpr ⟨Nat.le_refl _, e, member, all _ room⟩
    obtain ⟨u, alloc⟩ := booted.lowest lowest fun i less => by
      by_contra free
      have := ((booted.bitmap i).mp (by simpa using free)).1
      omega
    have value : (addrOf (kernelEndPage bssEnd)).toNat = 4096 * kernelEndPage bssEnd := toNat_addrOf limit
    have nonzero : addrOf (kernelEndPage bssEnd) ≠ 0 := by
      intro zero
      have values := congrArg UInt64.toNat zero
      rw [value] at values
      change 4096 * kernelEndPage bssEnd = 0 at values
      omega
    obtain ⟨-, ⟨f, other, lower, upper⟩, -⟩ := (good [] s .start).alloc _ u alloc nonzero
    rw [value] at lower upper
    obtain ⟨rounds, covers⟩ := covers_of_inside room (well.available_whole other) lower upper
    have apart : e ≠ f := by
      rintro rfl
      exact around rounds
    have two := counted_two member other apart
    obtain ⟨one, more⟩ := covers
    omega
  · rintro (rounds | ⟨full, exact_⟩) live t run
    · exact booted.good_of_rounds well positive rounds run
    by_cases rounds : ∀ e ∈ available tags, Rounds e
    · exact booted.good_of_rounds well positive rounds run
    -- no page is free
    rw [not_forall] at rounds
    obtain ⟨e, bad⟩ := rounds
    rw [Classical.not_imp] at bad
    obtain ⟨member, around⟩ := bad
    have ⟨first, stop⟩ := covers_around (well.available_whole member) around
    have none (p : Nat) : s.bitmap p ≠ false := by
      intro free
      have behind := ((booted.bitmap p).mp free).1
      have small := booted.bound free
      omega
    refine booted.good positive ?_ (fun p free => (none p free).elim) run
    have empty : clearBits s = ∅ := Finset.filter_eq_empty_iff.mpr fun p _ => none p
    have whole : coveredBelow (available tags) maxPages = Finset.range maxPages := by
      ext p
      rw [mem_coveredBelow, Finset.mem_range]
      exact and_iff_left_of_imp fun small => ⟨e, member, by omega, by omega⟩
    rw [booted.count, full, exact_, whole, Finset.card_range, empty, Finset.card_empty, UInt64.sub_self]
    rfl

/-- The tags end, and no memory map has records of size 0. -/
def Ends : List MbootTag → Prop
  | [] => False
  | tag :: rest => tag.type = 0 ∨ (tag.type = 6 → tag.entrySize ≠ 0) ∧ Ends rest

theorem addEntry_total (total : UInt64) (e : MmapEntry) (s : Machine) : ∃ total' t, (addEntry total e).run s = some (total', t) := by
  unfold addEntry
  split
  · have clears (j : Nat) (v : Machine) : ∃ t, (clearPage j).run v = some ((), t) := ⟨_, rfl⟩
    obtain ⟨u, clear⟩ := forRange_total clears e.firstPage (e.endPage - e.firstPage) s
    exact ⟨_, _, by rw [run_bind_some clear]; rfl⟩
  · exact ⟨_, _, rfl⟩

theorem addEntries_total (es : List MmapEntry) (total : UInt64) (s : Machine) :
    ∃ total' t, (es.foldlM addEntry total).run s = some (total', t) := by
  induction es generalizing total s with
  | nil => exact ⟨_, _, rfl⟩
  | cons e es ih =>
      obtain ⟨total₁, u, first⟩ := addEntry_total total e s
      obtain ⟨total', t, rest⟩ := ih total₁ u
      exact ⟨total', t, by rw [List.foldlM_cons, run_bind_some first, rest]⟩

theorem readTags_total (ends : Ends tags) (total : UInt64) (s : Machine) : ∃ total' t, (readTags total tags).run s = some (total', t) := by
  induction tags generalizing total s with
  | nil => exact ends.elim
  | cons tag tags ih =>
      unfold readTags
      split
      · exact ⟨_, _, rfl⟩
      next more =>
      obtain ⟨size, rest⟩ := ends.resolve_left more
      split
      · next map =>
          obtain ⟨total₁, u, added⟩ := addEntries_total ((List.range tag.count).map tag.entries) total s
          have first : (addMap total tag).run s = some (total₁, u) := by
            unfold addMap
            rw [if_neg (size map)]
            exact added
          rw [run_bind_some first]
          exact ih rest total₁ u
      · exact ih rest total s

theorem pmmInit_total (ends : Ends tags) (kernel : kernelEndPage bssEnd ≤ maxPages) (m : Machine) :
    ∃ total s, (pmmInit bssEnd tags).run m = some (total, s) := by
  let blank : Machine := { m with bitmap := fun _ => true, lastPhysPage := 0, freePageCount := 0, bounded := Nat.zero_le _ }
  obtain ⟨total, s₂, read⟩ := readTags_total ends 0 blank
  obtain ⟨s, reserve, -⟩ : ∃ s, (forRange reservePage 0 (kernelEndPage bssEnd)).run s₂ = some ((), s) ∧ True := by
    refine forRange_succeeds (fun _ _ => True) trivial fun j v _ upper _ => ?_
    have inside : ¬maxPages ≤ j := by omega
    unfold reservePage
    rw [if_neg inside]
    change ∃ t, (get >>= _ : MmM Unit).run v = some ((), t) ∧ True
    rw [run_bind_some (x := get) rfl]
    split
    · exact ⟨_, rfl, trivial⟩
    · exact ⟨_, rfl, trivial⟩
  refine ⟨total, s, ?_⟩
  unfold pmmInit
  rw [run_bind_some (x := modify _) rfl, run_bind_some read, run_bind_some reserve]
  rfl

def endTag : MbootTag := ⟨0, 8, 0, fun _ => ⟨0, 0, 0⟩⟩

/-- A memory map with one region that is available. -/
def oneRegion (addr len : UInt64) : List MbootTag := [⟨6, 40, 24, fun _ => ⟨addr, len, 1⟩⟩, endTag]

theorem mapEntries_oneRegion (addr len : UInt64) : mapEntries (oneRegion addr len) = [⟨addr, len, 1⟩] := by
  have one : (MbootTag.mk 6 40 24 fun _ => ⟨addr, len, 1⟩).count = 1 := by
    change (((40 : UInt32).toUInt64 - 16) / (24 : UInt32).toUInt64).toUInt32.toInt32.toInt.toNat = 1
    decide
  have map : ¬(6 : UInt32) = 0 := by decide
  unfold oneRegion mapEntries
  rw [if_neg map, if_pos rfl, one]
  rfl

theorem available_oneRegion (addr len : UInt64) : available (oneRegion addr len) = [⟨addr, len, 1⟩] := by
  unfold available
  rw [mapEntries_oneRegion]
  rfl

theorem oneRegion_wellFormed {addr len : UInt64} (whole : addr.toNat + len.toNat < 2 ^ 64) : WellFormed (oneRegion addr len) := by
  refine ⟨?_, ?_, ?_⟩
  · rw [mapEntries_oneRegion]
    rintro e member
    obtain rfl := List.mem_singleton.mp member
    exact whole
  · rw [mapEntries_oneRegion]
    exact List.pairwise_singleton _ _
  · rw [mapEntries_oneRegion, List.length_singleton]
    decide

theorem oneRegion_ends (addr len : UInt64) : Ends (oneRegion addr len) := by
  have size : (24 : UInt32) ≠ 0 := by decide
  exact .inr ⟨fun _ => size, .inl rfl⟩

def noMemory : Machine := ⟨fun _ _ => 0, fun _ => true, 0, 0, 0, by decide⟩

theorem pmm_good_lowRegion : ∃ total s, (pmmInit 0x300000 (oneRegion 0x100000 0x7F00000)).run noMemory = some (total, s) ∧
    PmmGood (oneRegion 0x100000 0x7F00000) 0x300000 [] s := by
  obtain ⟨total, s, run⟩ := pmmInit_total (oneRegion_ends 0x100000 0x7F00000) (by decide : kernelEndPage 0x300000 ≤ maxPages) noMemory
  refine ⟨total, s, run, (pmm_good_iff (oneRegion_wellFormed (by decide)) (by decide) run).mpr (.inl ?_) [] s .start⟩
  rw [available_oneRegion]
  intro e member
  obtain rfl := List.mem_singleton.mp member
  decide

/-- 50 bytes at the very end of the address space: the page behind the kernel is given out, and the memory map does not have it. -/
theorem region_at_end : ∃ total s u, WellFormed (oneRegion 0xFFFFFFFFFFFFFF9C 50) ∧
    (pmmInit 0x300000 (oneRegion 0xFFFFFFFFFFFFFF9C 50)).run noMemory = some (total, s) ∧ pageAlloc.run s = some (0x400000, u) ∧
    ¬(∃ e ∈ available (oneRegion 0xFFFFFFFFFFFFFF9C 50), e.addr.toNat ≤ 0x400000 ∧ 0x400000 + 4096 ≤ e.addr.toNat + e.len.toNat) ∧
    ¬∀ live t, PmmRun s live t → PmmGood (oneRegion 0xFFFFFFFFFFFFFF9C 50) 0x300000 live t := by
  obtain ⟨total, s, run⟩ := pmmInit_total (oneRegion_ends 0xFFFFFFFFFFFFFF9C 50) (by decide : kernelEndPage 0x300000 ≤ maxPages) noMemory
  have booted := pmmInit_run run
  have kernel : kernelEndPage 0x300000 = 0x400 := by decide
  have covered : Covers ⟨0xFFFFFFFFFFFFFF9C, 50, 1⟩ 0x400 := by
    obtain ⟨first, stop⟩ := covers_around (e := ⟨0xFFFFFFFFFFFFFF9C, 50, 1⟩) (by decide) (by unfold Rounds; decide)
    unfold Covers
    rw [first, stop]
    decide
  have lowest : s.bitmap 0x400 = false := by
    refine (booted.bitmap _).mpr ⟨by rw [kernel], ⟨0xFFFFFFFFFFFFFF9C, 50, 1⟩, ?_, covered⟩
    rw [available_oneRegion]
    exact List.mem_singleton.mpr rfl
  obtain ⟨u, alloc⟩ := booted.lowest lowest fun i less => by
    by_contra free
    have behind := ((booted.bitmap i).mp (by simpa using free)).1
    omega
  have address : addrOf 0x400 = 0x400000 := by decide
  rw [address] at alloc
  have outside : ¬∃ e ∈ available (oneRegion 0xFFFFFFFFFFFFFF9C 50), e.addr.toNat ≤ 0x400000 ∧ 0x400000 + 4096 ≤ e.addr.toNat + e.len.toNat := by
    rintro ⟨e, member, lower, -⟩
    rw [available_oneRegion] at member
    obtain rfl := List.mem_singleton.mp member
    exact absurd lower (by decide)
  refine ⟨total, s, u, oneRegion_wellFormed (by decide), run, alloc, outside, fun good => outside ?_⟩
  exact ((good [] s .start).alloc _ u alloc (by decide)).2.1

end SwiftBSD.Proof.Mm
