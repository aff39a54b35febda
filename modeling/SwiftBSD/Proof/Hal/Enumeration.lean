import SwiftBSD.Hal.Pci
import SwiftBSD.Lib.Preorder

namespace SwiftBSD.Proof.Hal
open Lib SwiftBSD.Hal.Pci

structure Place where
  bus : UInt8
  slot : UInt8
  func : UInt8
deriving DecidableEq

variable (space : UInt32 → UInt32)

/-- A function answers. Functions 1 to 7 are there only if function 0 is and says so in its header. -/
def Present (p : Place) : Prop :=
  p.slot < 32 ∧ p.func < 8 ∧ absent space p.bus p.slot 0 = false ∧
    (p.func ≠ 0 → multifunc space p.bus p.slot = true ∧ absent space p.bus p.slot p.func = false)

structure Entry (p : Place) (d : Dev) : Prop where
  bus : d.bus = p.bus
  slot : d.slot = p.slot
  func : d.func = p.func
  vendor : d.vendor = (configRead space p.bus p.slot p.func 0).toUInt16
  device : d.device = (configRead space p.bus p.slot p.func 0 >>> 16).toUInt16
  classCode : d.classCode = (configRead space p.bus p.slot p.func 8 >>> 24).toUInt8
  subclass : d.subclass = (configRead space p.bus p.slot p.func 8 >>> 16).toUInt8
  progIf : d.progIf = (configRead space p.bus p.slot p.func 8 >>> 8).toUInt8
  headerType : d.headerType = (configRead space p.bus p.slot p.func 0x0C >>> 16).toUInt8
  bar : ∀ i : Fin 6, d.bar i = configRead space p.bus p.slot p.func (0x10 + UInt32.ofNat i.val * 4)
  isBridge : d.isBridge = (d.headerType &&& 0x7F == 1)
  secondaryBus : d.isBridge = true → d.secondaryBus = (configRead space p.bus p.slot p.func 0x18 >>> 8).toUInt8

def bridge (p : Place) : Bool := (configRead space p.bus p.slot p.func 0x0C >>> 16).toUInt8 &&& 0x7F == 1

def secondary (p : Place) : UInt8 := (configRead space p.bus p.slot p.func 0x18 >>> 8).toUInt8

def others (bus slot : UInt8) : List Place :=
  ((List.range' 1 7).filter fun func => !absent space bus slot (.ofNat func)).map fun func => ⟨bus, slot, .ofNat func⟩

def ofSlot (bus slot : UInt8) : List Place :=
  if absent space bus slot 0 then []
  else ⟨bus, slot, 0⟩ :: if multifunc space bus slot then others space bus slot else []

def ofBus (bus : UInt8) : List Place := (List.range 32).flatMap fun slot => ofSlot space bus (.ofNat slot)

theorem Entry.place_eq {space : UInt32 → UInt32} {p q : Place} {d : Dev} (first : Entry space p d) (second : Entry space q d) : p = q := by
  obtain ⟨a, b, c⟩ := p
  obtain ⟨a', b', c'⟩ := q
  have bus := first.bus.symm.trans second.bus
  have slot := first.slot.symm.trans second.slot
  have func := first.func.symm.trans second.func
  dsimp only at bus slot func
  rw [bus, slot, func]

/-- The entries in use are those of the places, in order. -/
structure Lists (s : State) (l : List Place) : Prop where
  length : s.ndevices = l.length
  entry : ∀ i p, l[i]? = some p → Entry space p (s.devices i)

variable {space} {s : State} {l : List Place} {p : Place} {bus slot func : UInt8}

theorem and_low (x : UInt32) : (x &&& 0xFFFF).toUInt16 = x.toUInt16 := by
  apply UInt16.toNat_inj.mp
  simp only [UInt32.toNat_toUInt16, UInt32.toNat_and]
  rw [show (0xFFFF : UInt32).toNat = 2 ^ 16 - 1 from rfl, Nat.and_two_pow_sub_one_eq_mod, Nat.mod_mod]

theorem and_byte (x : UInt32) : (x &&& 0xFF).toUInt8 = x.toUInt8 := by
  apply UInt8.toNat_inj.mp
  simp only [UInt32.toNat_toUInt8, UInt32.toNat_and]
  rw [show (0xFF : UInt32).toNat = 2 ^ 8 - 1 from rfl, Nat.and_two_pow_sub_one_eq_mod, Nat.mod_mod]

theorem vendor_iff (x : UInt32) : (x &&& 0xFFFF).toUInt16 = 0xFFFF ↔ (x &&& 0xFFFF == 0xFFFF) = true := by
  rw [beq_iff_eq, ← UInt16.toNat_inj, ← UInt32.toNat_inj, UInt32.toNat_toUInt16]
  have low : (x &&& 0xFFFF).toNat < 2 ^ 16 := by
    rw [UInt32.toNat_and, show (0xFFFF : UInt32).toNat = 2 ^ 16 - 1 from rfl, Nat.and_two_pow_sub_one_eq_mod]
    exact Nat.mod_lt _ (by decide)
  rw [Nat.mod_eq_of_lt low]
  rfl

theorem filled_entry (bus slot func : UInt8) (d : Dev) : Entry space ⟨bus, slot, func⟩ (filled space (identified space bus slot func d)) := by
  unfold filled identified
  dsimp only
  split
  · next isBridge => exact ⟨rfl, rfl, rfl, and_low _, rfl, and_byte _, and_byte _, and_byte _, and_byte _, fun _ => rfl, rfl, fun _ => and_byte _⟩
  · next noBridge =>
    exact ⟨rfl, rfl, rfl, and_low _, rfl, and_byte _, and_byte _, and_byte _, and_byte _, fun _ => rfl, rfl, fun wrong => absurd wrong noBridge⟩

theorem Lists.add (lists : Lists space s l) (room : l.length < 64) (here : absent space bus slot func = false) :
    Lists space (addDevice space bus slot func s) (l ++ [⟨bus, slot, func⟩]) := by
  have vendor : (identified space bus slot func (s.devices s.ndevices)).vendor ≠ 0xFFFF := by
    intro none
    have := (vendor_iff _).mp none
    rw [absent] at here
    rw [here] at this
    cases this
  rw [addDevice, if_neg (by rw [lists.length, maxDevices]; omega)]
  dsimp only
  rw [if_neg vendor]
  constructor
  · rw [List.length_append, ← lists.length]
    rfl
  · intro i p at_
    dsimp only
    rcases Nat.lt_or_ge i l.length with old | new
    · rw [List.getElem?_append_left old] at at_
      rw [Function.update_of_ne (by rw [lists.length]; omega)]
      exact lists.entry i p at_
    · rw [List.getElem?_append_right new] at at_
      obtain ⟨zero, rfl⟩ : i - l.length = 0 ∧ (⟨bus, slot, func⟩ : Place) = p := by
        rcases Nat.eq_zero_or_pos (i - l.length) with zero | positive
        · rw [zero] at at_
          exact ⟨zero, Option.some.inj at_⟩
        · rw [List.getElem?_eq_none (by simp only [List.length_singleton]; omega)] at at_
          cases at_
      obtain rfl : i = s.ndevices := by rw [lists.length]; omega
      rw [Function.update_self]
      exact filled_entry bus slot func _

theorem Lists.addOthers {funcs : List Nat} (lists : Lists space s l)
    (room : l.length + ((funcs.filter fun func => !absent space bus slot (.ofNat func)).length) ≤ 64) :
    Lists space (funcs.foldl (fun s func => if absent space bus slot (.ofNat func) then s else addDevice space bus slot (.ofNat func) s) s)
      (l ++ (funcs.filter fun func => !absent space bus slot (.ofNat func)).map fun func => ⟨bus, slot, .ofNat func⟩) := by
  induction funcs generalizing s l with
  | nil =>
      rw [List.filter_nil, List.map_nil, List.append_nil]
      exact lists
  | cons func funcs ih =>
      rw [List.foldl_cons]
      cases here : absent space bus slot (.ofNat func) with
      | true =>
          rw [List.filter_cons_of_neg (by simp [here])] at room ⊢
          rw [if_pos rfl]
          exact ih lists room
      | false =>
          rw [List.filter_cons_of_pos (by simp [here]), List.length_cons] at room
          rw [List.filter_cons_of_pos (by simp [here]), List.map_cons, if_neg Bool.false_ne_true, List.append_cons]
          exact ih (lists.add (by omega) here) (by simp only [List.length_append, List.length_singleton]; omega)

theorem Lists.addSlot (lists : Lists space s l) (room : l.length + (ofSlot space bus slot).length ≤ 64) :
    Lists space (scanSlot space bus slot s) (l ++ ofSlot space bus slot) := by
  unfold scanSlot
  unfold ofSlot at room ⊢
  cases here : absent space bus slot 0 with
  | true =>
      rw [if_pos rfl, if_pos rfl, List.append_nil]
      exact lists
  | false =>
      rw [here, if_neg Bool.false_ne_true, List.length_cons] at room
      rw [if_neg Bool.false_ne_true, if_neg Bool.false_ne_true, List.append_cons]
      have first := lists.add (by omega) here
      split
      · next many =>
          rw [if_pos many, Hal.others, List.length_map] at room
          exact first.addOthers (by simp only [List.length_append, List.length_singleton]; omega)
      · rw [List.append_nil]
        exact first

theorem Lists.scan (lists : Lists space s l) (room : l.length + (ofBus space bus).length ≤ 64) :
    Lists space (scanBus space bus s) (l ++ ofBus space bus) := by
  unfold scanBus
  unfold ofBus at room ⊢
  generalize List.range 32 = slots at room ⊢
  induction slots generalizing s l with
  | nil =>
      rw [List.flatMap_nil, List.append_nil]
      exact lists
  | cons slot slots ih =>
      rw [List.flatMap_cons, List.length_append] at room
      rw [List.flatMap_cons, List.foldl_cons, ← List.append_assoc]
      exact ih (lists.addSlot (by omega)) (by rw [List.length_append]; omega)

variable (space) in
/-- The bus that the recursive scan goes to for an entry of the bus that it scans. -/
def behind (bus : UInt8) (p : Place) : Option UInt8 :=
  if bridge space p = true ∧ p.bus = bus ∧ secondary space p ≠ 0 ∧ secondary space p ≠ bus then some (secondary space p) else none

variable (space) in
def buses (bus : UInt8) : List UInt8 := (ofBus space bus).filterMap (behind space bus)

theorem bus_of_mem_ofBus (member : p ∈ ofBus space bus) : p.bus = bus := by
  obtain ⟨slot, -, member⟩ := List.mem_flatMap.mp member
  unfold ofSlot at member
  split at member
  · cases member
  · rcases List.mem_cons.mp member with rfl | member
    · rfl
    · split at member
      · obtain ⟨func, -, rfl⟩ := List.mem_map.mp member
        rfl
      · cases member

theorem Entry.behind_eq {d : Dev} (entry : Entry space p d) (bus : UInt8) :
    (d.isBridge = true ∧ d.bus = bus ∧ d.secondaryBus ≠ 0 ∧ d.secondaryBus ≠ bus) ↔ behind space bus p = some d.secondaryBus := by
  have same : d.isBridge = bridge space p := by rw [entry.isBridge, entry.headerType]; rfl
  unfold behind
  constructor
  · rintro ⟨isBridge, here, nonzero, other⟩
    have sec : d.secondaryBus = secondary space p := entry.secondaryBus isBridge
    rw [if_pos ⟨same ▸ isBridge, entry.bus ▸ here, sec ▸ nonzero, sec ▸ other⟩, sec]
  · intro found
    split at found
    · next cond =>
      obtain ⟨isBridge, here, nonzero, other⟩ := cond
      have sec := Option.some.inj found
      exact ⟨same ▸ isBridge, entry.bus ▸ here, sec ▸ nonzero, sec ▸ other⟩
    · cases found

variable {fuel n i : Nat} {recursive : UInt8 → State → Option State} {found : UInt8 → List Place}

/-- The loop over the array: `pending` are the buses behind the entries from `i` on. A recursive scan adds entries of other buses only, so
the entries it adds are passed over. -/
theorem Lists.addPending (pending : List UInt8) (lists : Lists space s l) (start : i ≤ l.length) (enough : 64 ≤ i + n)
    (rest : (l.drop i).filterMap (behind space bus) = pending)
    (elsewhere : ∀ c ∈ pending, ∀ p ∈ found c, p.bus ≠ bus)
    (room : l.length + (pending.flatMap found).length ≤ 64)
    (Fresh : UInt8 → List Place → Prop)
    (fresh : ∀ c ∈ pending, Fresh c l)
    (apart : pending.Pairwise fun c d => ∀ l, Fresh d l → Fresh d (l ++ found c))
    (run : ∀ c ∈ pending, ∀ s l, Lists space s l → Fresh c l → l.length + (found c).length ≤ 64 →
      ∃ t, recursive c s = some t ∧ Lists space t (l ++ found c)) :
    ∃ t, scanBridges recursive bus n i s = some t ∧ Lists space t (l ++ pending.flatMap found) := by
  induction n generalizing i s l pending with
  | zero =>
      have whole : l.length ≤ i := by omega
      rw [List.drop_of_length_le whole, List.filterMap_nil] at rest
      subst rest
      rw [List.flatMap_nil, List.append_nil]
      exact ⟨s, if_pos (by rw [lists.length]; exact whole), lists⟩
  | succ n ih =>
      rw [scanBridges]
      by_cases whole : l.length ≤ i
      · rw [List.drop_of_length_le whole, List.filterMap_nil] at rest
        subst rest
        rw [if_pos (by rw [lists.length]; exact whole), List.flatMap_nil, List.append_nil]
        exact ⟨s, rfl, lists⟩
      · have inside : i < l.length := Nat.lt_of_not_le whole
        have entry := lists.entry i l[i] (List.getElem?_eq_getElem inside)
        have here := entry.behind_eq bus
        rw [if_neg (by rw [lists.length]; exact whole)]
        rw [List.drop_eq_getElem_cons inside] at rest
        cases bus? : behind space bus l[i] with
        | none =>
            rw [bus?] at here
            rw [List.filterMap_cons_none bus?] at rest
            rw [if_neg (here.not.mpr (fun wrong => nomatch wrong))]
            exact ih pending lists inside (by omega) rest elsewhere room fresh apart run
        | some c =>
            have sec : (s.devices i).secondaryBus = c := by
              have cond := bus?
              unfold behind at cond
              split at cond
              · next cond' =>
                obtain rfl := Option.some.inj cond
                exact entry.secondaryBus (by rw [entry.isBridge, entry.headerType]; exact cond'.1)
              · cases cond
            rw [bus?, sec] at here
            rw [List.filterMap_cons_some bus?] at rest
            subst rest
            rw [List.flatMap_cons, List.length_append] at room
            obtain ⟨t, step, more⟩ := run c List.mem_cons_self s l lists (fresh c List.mem_cons_self) (by omega)
            obtain ⟨fromHere, apart⟩ := List.pairwise_cons.mp apart
            have skipped : (found c).filterMap (behind space bus) = [] := by
              rw [List.filterMap_eq_nil_iff]
              intro p member
              exact if_neg fun cond => elsewhere c List.mem_cons_self p member cond.2.1
            obtain ⟨u, steps, all⟩ := ih (i := i + 1) ((l.drop (i + 1)).filterMap (behind space bus)) more
              (by rw [List.length_append]; omega) (by omega)
              (by rw [List.drop_append_of_le_length inside, List.filterMap_append, skipped, List.append_nil])
              (fun d member => elsewhere d (List.mem_cons_of_mem c member))
              (by rw [List.length_append]; omega)
              (fun d member => fromHere d member l (fresh d (List.mem_cons_of_mem c member))) apart
              (fun d member => run d (List.mem_cons_of_mem c member))
            rw [if_pos (by rw [sec]; exact here.mpr rfl), sec, step]
            refine ⟨u, steps, ?_⟩
            rw [List.flatMap_cons, ← List.append_assoc]
            exact all

variable (space) in
/-- The functions of a bus and of the buses below it, in the order in which they are found. -/
def below (fuel : Nat) (bus : UInt8) : List Place := (preorder (buses space) fuel bus).flatMap (ofBus space)

variable (space) in
/-- No entry is of a bus that is still to be scanned. -/
def Fresh (fuel : Nat) (bus : UInt8) (l : List Place) : Prop := ∀ x ∈ preorder (buses space) fuel bus, ∀ p ∈ l, p.bus ≠ x

theorem mem_below_bus (member : p ∈ below space fuel bus) : p.bus ∈ preorder (buses space) fuel bus := by
  obtain ⟨x, visited, member⟩ := List.mem_flatMap.mp member
  rwa [bus_of_mem_ofBus member]

theorem Lists.scanRecursive (lists : Lists space s l) (deep : DeepEnough (buses space) fuel bus) (nodup : (preorder (buses space) fuel bus).Nodup)
    (fresh : Fresh space fuel bus l) (room : l.length + (below space fuel bus).length ≤ 64) :
    ∃ t, scanBusRecursive space fuel bus s = some t ∧ Lists space t (l ++ below space fuel bus) := by
  induction fuel generalizing bus s l with
  | zero => exact absurd deep id
  | succ fuel ih =>
      obtain ⟨other, nodup⟩ := List.nodup_cons.mp nodup
      obtain ⟨each, apart⟩ := List.nodup_flatMap.mp nodup
      have split : below space (fuel + 1) bus = ofBus space bus ++ (buses space bus).flatMap (below space fuel) := by
        rw [below, preorder, List.flatMap_cons, List.flatMap_assoc]
        rfl
      rw [split, List.length_append] at room
      have scanned : Lists space (scanBus space bus s) (l ++ ofBus space bus) := lists.scan (by omega)
      have old : l.filterMap (behind space bus) = [] := by
        rw [List.filterMap_eq_nil_iff]
        intro p member
        exact if_neg fun cond => fresh bus List.mem_cons_self p member cond.2.1
      obtain ⟨t, run, all⟩ : ∃ t, scanBridges (scanBusRecursive space fuel) bus 64 0 (scanBus space bus s) = some t ∧
          Lists space t (l ++ ofBus space bus ++ (buses space bus).flatMap (below space fuel)) := scanned.addPending
        (buses space bus) (Nat.zero_le _) le_rfl (by rw [List.drop_zero, List.filterMap_append, old, List.nil_append]; rfl)
        (fun c child p member (same : p.bus = bus) => other (List.mem_flatMap.mpr ⟨c, child, by rw [← same]; exact mem_below_bus member⟩))
        (by rw [List.length_append]; omega) (Fresh space fuel)
        (by
          intro c child x visited p member
          rcases List.mem_append.mp member with member | member
          · exact fresh x (List.mem_cons_of_mem _ (List.mem_flatMap.mpr ⟨c, child, visited⟩)) p member
          · rw [bus_of_mem_ofBus member]
            rintro rfl
            exact other (List.mem_flatMap.mpr ⟨c, child, visited⟩))
        (apart.imp fun {c d} disjoint l fresh x visited p member => by
          rcases List.mem_append.mp member with member | member
          · exact fresh x visited p member
          · rintro rfl
            exact disjoint (mem_below_bus member) visited)
        (fun c child s l lists fresh room => ih lists (deep c child) (each c child) fresh room)
      refine ⟨t, run, ?_⟩
      rw [split, ← List.append_assoc]
      exact all

theorem mem_others : p ∈ others space bus slot ↔
    p.bus = bus ∧ p.slot = slot ∧ p.func ≠ 0 ∧ p.func < 8 ∧ absent space bus slot p.func = false := by
  unfold others
  simp only [List.mem_map, List.mem_filter, List.mem_range'_1, Bool.not_eq_true']
  constructor
  · rintro ⟨func, ⟨⟨low, high⟩, here⟩, rfl⟩
    have value : (UInt8.ofNat func).toNat = func := by rw [UInt8.toNat_ofNat']; omega
    refine ⟨rfl, rfl, fun zero => ?_, ?_, here⟩
    · have := congrArg UInt8.toNat zero
      rw [value] at this
      change func = 0 at this
      omega
    · rw [UInt8.lt_iff_toNat_lt, value]
      exact (show func < 8 by omega)
  · rintro ⟨rfl, rfl, nonzero, small, here⟩
    rw [UInt8.lt_iff_toNat_lt] at small
    change p.func.toNat < 8 at small
    have positive : p.func.toNat ≠ 0 := fun zero => nonzero (UInt8.toNat_inj.mp zero)
    exact ⟨p.func.toNat, ⟨⟨by omega, by omega⟩, by rw [UInt8.ofNat_toNat]; exact here⟩, by rw [UInt8.ofNat_toNat]⟩

theorem mem_ofSlot (small : slot < 32) : p ∈ ofSlot space bus slot ↔ p.bus = bus ∧ p.slot = slot ∧ Present space p := by
  unfold ofSlot Present
  cases here : absent space bus slot 0 with
  | true =>
      rw [if_pos rfl]
      constructor
      · exact fun member => absurd member List.not_mem_nil
      · rintro ⟨rfl, rfl, -, -, answers, -⟩
        rw [here] at answers
        cases answers
  | false =>
      rw [if_neg Bool.false_ne_true, List.mem_cons]
      constructor
      · rintro (rfl | member)
        · exact ⟨rfl, rfl, small, show (0 : UInt8) < 8 by decide, here, fun wrong => absurd rfl wrong⟩
        · split at member
          · next many =>
            obtain ⟨rfl, rfl, -, func, answers⟩ := mem_others.mp member
            exact ⟨rfl, rfl, small, func, here, fun _ => ⟨many, answers⟩⟩
          · cases member
      · rintro ⟨rfl, rfl, -, func, -, rest⟩
        by_cases zero : p.func = 0
        · left
          rw [← zero]
        · right
          rw [if_pos (rest zero).1]
          exact mem_others.mpr ⟨rfl, rfl, zero, func, (rest zero).2⟩

theorem slot_lt {i : Nat} (inside : i < 32) : UInt8.ofNat i < 32 := by
  rw [UInt8.lt_iff_toNat_lt, UInt8.toNat_ofNat']
  exact (show i % 2 ^ 8 < 32 by omega)

theorem mem_ofBus : p ∈ ofBus space bus ↔ p.bus = bus ∧ Present space p := by
  unfold ofBus
  simp only [List.mem_flatMap, List.mem_range]
  constructor
  · rintro ⟨slot, inside, member⟩
    obtain ⟨same, -, here⟩ := (mem_ofSlot (slot_lt inside)).mp member
    exact ⟨same, here⟩
  · rintro ⟨same, here⟩
    have inside : p.slot.toNat < 32 := UInt8.lt_iff_toNat_lt.mp here.1
    refine ⟨p.slot.toNat, inside, ?_⟩
    rw [UInt8.ofNat_toNat]
    exact (mem_ofSlot here.1).mpr ⟨same, rfl, here⟩

theorem ofNat_inj {i j : Nat} (first : i < 32) (second : j < 32) (same : UInt8.ofNat i = UInt8.ofNat j) : i = j := by
  have := congrArg UInt8.toNat same
  rw [UInt8.toNat_ofNat', UInt8.toNat_ofNat'] at this
  omega

theorem nodup_ofSlot (bus slot : UInt8) : (ofSlot space bus slot).Nodup := by
  unfold ofSlot
  split
  · exact List.nodup_nil
  · refine List.nodup_cons.mpr ⟨?_, ?_⟩
    · split
      · exact fun member => (mem_others.mp member).2.2.1 rfl
      · exact List.not_mem_nil
    · split
      · refine List.Nodup.map_on ?_ (List.Nodup.filter _ List.nodup_range')
        intro i member j member' same
        have first := (List.mem_range'_1.mp (List.mem_of_mem_filter member)).2
        have second := (List.mem_range'_1.mp (List.mem_of_mem_filter member')).2
        exact ofNat_inj (by omega) (by omega) (congrArg Place.func same)
      · exact List.nodup_nil

theorem nodup_ofBus (bus : UInt8) : (ofBus space bus).Nodup := by
  refine List.nodup_flatMap.mpr ⟨fun slot _ => nodup_ofSlot bus _, ?_⟩
  refine (List.nodup_range (n := 32)).imp_of_mem fun {i j} first second different => ?_
  intro p member member'
  have left := ((mem_ofSlot (slot_lt (List.mem_range.mp first))).mp member).2.1
  have right := ((mem_ofSlot (slot_lt (List.mem_range.mp second))).mp member').2.1
  exact different (ofNat_inj (List.mem_range.mp first) (List.mem_range.mp second) (left.symm.trans right))

variable (space) in
/-- A bridge on the first bus leads to the second. -/
def Leads (b c : UInt8) : Prop := ∃ p, Present space p ∧ p.bus = b ∧ bridge space p = true ∧ secondary space p = c

variable (space) in
def OnTree : UInt8 → Prop := Relation.ReflTransGen (Leads space) 0

variable (space) in
/-- The secondary bus numbers below bus 0 are not 0 and each belongs to one bridge. -/
structure BusTree : Prop where
  nonzero : ∀ p, Present space p → OnTree space p.bus → bridge space p = true → secondary space p ≠ 0
  once : ∀ p q, Present space p → OnTree space p.bus → bridge space p = true → Present space q → OnTree space q.bus → bridge space q = true →
    secondary space p = secondary space q → p = q

theorem mem_buses {b c : UInt8} : c ∈ buses space b ↔ Leads space b c ∧ c ≠ 0 ∧ c ≠ b := by
  unfold buses behind Leads
  rw [List.mem_filterMap]
  constructor
  · rintro ⟨p, member, found⟩
    split at found
    · next cond =>
      obtain rfl := Option.some.inj found
      exact ⟨⟨p, (mem_ofBus.mp member).2, cond.2.1, cond.1, rfl⟩, cond.2.2⟩
    · cases found
  · rintro ⟨⟨p, here, same, isBridge, rfl⟩, other⟩
    exact ⟨p, mem_ofBus.mpr ⟨same, here⟩, if_pos ⟨isBridge, same, other⟩⟩

theorem onTree_of_leadsTo {b : UInt8} (leads : LeadsTo (buses space) 0 b) : OnTree space b :=
  Relation.ReflTransGen.mono (fun _ _ child => (mem_buses.mp child).1) _ _ leads

namespace BusTree

theorem leadsTo (tree : BusTree space) {b : UInt8} (reached : OnTree space b) : LeadsTo (buses space) 0 b := by
  induction reached with
  | refl => exact .refl
  | @tail b c before lead ih =>
      by_cases same : c = b
      · rw [same]
        exact ih
      · obtain ⟨p, here, rfl, isBridge, rfl⟩ := lead
        exact ih.tail (mem_buses.mpr ⟨⟨p, here, rfl, isBridge, rfl⟩, tree.nonzero p here before isBridge, same⟩)

theorem rooted (tree : BusTree space) : Rooted (buses space) 0 where
  nodup b reached := by
    have bridgeOf {p : Place} {c : UInt8} (found : behind space b p = some c) : bridge space p = true ∧ secondary space p = c := by
      unfold behind at found
      split at found
      · next cond => exact ⟨cond.1, Option.some.inj found⟩
      · cases found
    refine List.pairwise_filterMap.mpr ((nodup_ofBus b).imp_of_mem fun {p q} member member' different c found d found' same => ?_)
    obtain ⟨here, present⟩ := mem_ofBus.mp member
    obtain ⟨here', present'⟩ := mem_ofBus.mp member'
    have on := onTree_of_leadsTo reached
    refine different (tree.once p q present (here ▸ on) (bridgeOf found).1 present' (here' ▸ on) (bridgeOf found').1 ?_)
    rw [(bridgeOf found).2, (bridgeOf found').2, same]
  orphan b _ child := (mem_buses.mp child).2.1 rfl
  parent b c x reached reached' child child' := by
    obtain ⟨⟨p, present, rfl, isBridge, same⟩, -⟩ := mem_buses.mp child
    obtain ⟨⟨q, present', rfl, isBridge', same'⟩, -⟩ := mem_buses.mp child'
    rw [tree.once p q present (onTree_of_leadsTo reached) isBridge present' (onTree_of_leadsTo reached') isBridge' (same.trans same'.symm)]

theorem deep (tree : BusTree space) (enough : 256 ≤ fuel) : DeepEnough (buses space) fuel 0 := by
  have inj : Function.Injective fun x : UInt8 => (⟨x.toNat, x.toNat_lt⟩ : Fin 256) := fun x y same => UInt8.toNat_inj.mp (Fin.mk.inj same)
  have : Fintype UInt8 := Fintype.ofInjective _ inj
  refine deepEnough_card tree.rooted (le_trans ?_ enough)
  have := Fintype.card_le_of_injective _ inj
  rwa [Fintype.card_fin] at this

theorem nodup_below (tree : BusTree space) : (below space fuel 0).Nodup := by
  refine List.nodup_flatMap.mpr ⟨fun b _ => nodup_ofBus b, (nodup_preorder tree.rooted .root).imp fun {b c} different p member member' => ?_⟩
  exact different ((bus_of_mem_ofBus member).symm.trans (bus_of_mem_ofBus member'))

theorem mem_below (tree : BusTree space) (enough : 256 ≤ fuel) : p ∈ below space fuel 0 ↔ Present space p ∧ OnTree space p.bus := by
  constructor
  · intro member
    have visited := mem_below_bus member
    obtain ⟨b, -, member⟩ := List.mem_flatMap.mp member
    exact ⟨(mem_ofBus.mp member).2, onTree_of_leadsTo (leadsTo_of_mem_preorder visited)⟩
  · rintro ⟨present, reached⟩
    exact List.mem_flatMap.mpr ⟨p.bus, mem_preorder (tree.deep enough) (tree.leadsTo reached), mem_ofBus.mpr ⟨rfl, present⟩⟩

end BusTree

variable {t : State}

theorem scanBridges_mono {more : UInt8 → State → Option State} (longer : ∀ c s t, recursive c s = some t → more c s = some t)
    (run : scanBridges recursive bus n i s = some t) : scanBridges more bus n i s = some t := by
  induction n generalizing i s with
  | zero => exact run
  | succ n ih =>
      rw [scanBridges] at run ⊢
      dsimp only at run ⊢
      split
      · next stop => rwa [if_pos stop] at run
      · next inside =>
        rw [if_neg inside] at run
        split
        · next cond =>
          rw [if_pos cond] at run
          obtain ⟨u, first, rest⟩ := Option.bind_eq_some_iff.mp run
          rw [longer _ _ _ first]
          exact ih rest
        · next cond =>
          rw [if_neg cond] at run
          exact ih run

theorem scanBusRecursive_succ (run : scanBusRecursive space fuel bus s = some t) : scanBusRecursive space (fuel + 1) bus s = some t := by
  induction fuel generalizing bus s t with
  | zero => cases run
  | succ fuel ih => exact scanBridges_mono (fun _ _ _ => ih) run

theorem scanBusRecursive_add (run : scanBusRecursive space fuel bus s = some t) (k : Nat) : scanBusRecursive space (fuel + k) bus s = some t := by
  induction k with
  | zero => exact run
  | succ k ih => exact scanBusRecursive_succ ih

theorem pciFind_some {classCode subclass progIf : UInt8} (found : pciFind classCode subclass progIf t = some i) :
    i < t.ndevices ∧ (t.devices i).classCode = classCode ∧ (t.devices i).subclass = subclass ∧ (t.devices i).progIf = progIf := by
  have member := List.mem_range.mp (List.mem_of_find?_eq_some found)
  have codes := List.find?_some found
  simp only [Bool.and_eq_true, beq_iff_eq] at codes
  exact ⟨member, codes.1.1, codes.1.2, codes.2⟩

theorem pciFind_isSome {classCode subclass progIf : UInt8} :
    (∃ i, pciFind classCode subclass progIf t = some i) ↔ ∃ i, i < t.ndevices ∧ (t.devices i).classCode = classCode ∧
      (t.devices i).subclass = subclass ∧ (t.devices i).progIf = progIf := by
  constructor
  · rintro ⟨i, found⟩
    exact ⟨i, pciFind_some found⟩
  · rintro ⟨i, inside, rfl, rfl, rfl⟩
    refine Option.isSome_iff_exists.mp (List.find?_isSome.mpr ⟨i, List.mem_range.mpr inside, ?_⟩)
    simp

def Codes (space : UInt32 → UInt32) (p : Place) (classCode subclass progIf : UInt8) : Prop :=
  (configRead space p.bus p.slot p.func 8 >>> 24).toUInt8 = classCode ∧ (configRead space p.bus p.slot p.func 8 >>> 16).toUInt8 = subclass ∧
    (configRead space p.bus p.slot p.func 8 >>> 8).toUInt8 = progIf

/-- At most 64 functions in a tree of buses: the scan ends, each function of the tree has exactly one entry, every entry is of such a function,
and `pci_find` finds an entry with the given codes exactly when there is a function with them. -/
theorem pciInit_enumerates (tree : BusTree space) (few : ∃ l : List Place, l.length ≤ 64 ∧ ∀ p, Present space p → OnTree space p.bus → p ∈ l)
    (s : State) :
    ∃ t, (∀ fuel, 256 ≤ fuel → pciInit space fuel s = some t) ∧ t.ndevices ≤ 64 ∧
      (∀ p, Present space p → OnTree space p.bus → ∃! i, i < t.ndevices ∧ Entry space p (t.devices i)) ∧
      (∀ i, i < t.ndevices → ∃ p, Present space p ∧ OnTree space p.bus ∧ Entry space p (t.devices i)) ∧
      ∀ classCode subclass progIf,
        ((∃ i, pciFind classCode subclass progIf t = some i) ↔
          ∃ p, Present space p ∧ OnTree space p.bus ∧ Codes space p classCode subclass progIf) ∧
        ∀ i, pciFind classCode subclass progIf t = some i →
          i < t.ndevices ∧ (t.devices i).classCode = classCode ∧ (t.devices i).subclass = subclass ∧ (t.devices i).progIf = progIf := by
  have nodup : (below space 256 0).Nodup := tree.nodup_below
  have member (p : Place) : p ∈ below space 256 0 ↔ Present space p ∧ OnTree space p.bus := tree.mem_below le_rfl
  obtain ⟨all, small, covers⟩ := few
  have room : (below space 256 0).length ≤ 64 :=
    (List.Nodup.subperm nodup fun p inside => covers p ((member p).mp inside).1 ((member p).mp inside).2).length_le.trans small
  have start : Lists space { s with ndevices := 0 } [] := ⟨rfl, fun _ _ none => absurd none (by simp)⟩
  obtain ⟨t, run, lists⟩ := start.scanRecursive (tree.deep le_rfl) (nodup_preorder tree.rooted .root) (fun _ _ _ none => absurd none List.not_mem_nil)
    (by rw [List.length_nil, Nat.zero_add]; exact room)
  rw [List.nil_append] at lists
  have length := lists.length
  have entries (i : Nat) (inside : i < t.ndevices) : ∃ p, (below space 256 0)[i]? = some p ∧ Entry space p (t.devices i) := by
    have found := List.getElem?_eq_getElem (length ▸ inside)
    exact ⟨_, found, lists.entry i _ found⟩
  have recorded (p : Place) (present : Present space p) (reached : OnTree space p.bus) : ∃ i, i < t.ndevices ∧ Entry space p (t.devices i) := by
    obtain ⟨i, found⟩ := List.mem_iff_getElem?.mp ((member p).mpr ⟨present, reached⟩)
    obtain ⟨inside, -⟩ := List.getElem?_eq_some_iff.mp found
    exact ⟨i, length ▸ inside, lists.entry i p found⟩
  have real (i : Nat) (inside : i < t.ndevices) : ∃ p, Present space p ∧ OnTree space p.bus ∧ Entry space p (t.devices i) := by
    obtain ⟨p, found, entry⟩ := entries i inside
    obtain ⟨present, reached⟩ := (member p).mp (List.mem_of_getElem? found)
    exact ⟨p, present, reached, entry⟩
  refine ⟨t, fun fuel enough => ?_, length ▸ room, fun p present reached => ?_, real, fun classCode subclass progIf => ⟨?_, fun i => pciFind_some⟩⟩
  · obtain ⟨k, rfl⟩ := Nat.exists_eq_add_of_le enough
    exact scanBusRecursive_add run k
  · obtain ⟨i, inside, entry⟩ := recorded p present reached
    refine ⟨i, ⟨inside, entry⟩, fun j ⟨inside', entry'⟩ => ?_⟩
    have at_ (k : Nat) (inside : k < t.ndevices) (entry : Entry space p (t.devices k)) : (below space 256 0)[k]? = some p := by
      obtain ⟨q, found, here⟩ := entries k inside
      rw [found, here.place_eq entry]
    exact (List.getElem?_inj (length ▸ inside') nodup).mp ((at_ j inside' entry').trans (at_ i inside entry).symm)
  · rw [pciFind_isSome]
    constructor
    · rintro ⟨i, inside, rfl, rfl, rfl⟩
      obtain ⟨p, present, reached, entry⟩ := real i inside
      exact ⟨p, present, reached, entry.classCode.symm, entry.subclass.symm, entry.progIf.symm⟩
    · rintro ⟨p, present, reached, rfl, rfl, rfl⟩
      obtain ⟨i, inside, entry⟩ := recorded p present reached
      exact ⟨i, inside, entry.classCode, entry.subclass, entry.progIf⟩

/-- A host bridge, and a bridge to bus 1 with one device. -/
def smallSpace (addr : UInt32) : UInt32 :=
  if addr = 0x80000000 then 0x12378086
  else if addr = 0x8000000C then 0
  else if addr = 0x80000800 then 0x00011B36
  else if addr = 0x8000080C then 0x00010000
  else if addr = 0x80000818 then 0x00010100
  else if addr = 0x80010000 then 0x100E8086
  else if addr = 0x80010008 then 0x02000000
  else if addr = 0x8001000C then 0
  else 0xFFFFFFFF

def smallPlaces : List Place := [⟨0, 0, 0⟩, ⟨0, 1, 0⟩, ⟨1, 0, 0⟩]

theorem configAddr_toNat (bus : UInt8) (small : slot < 32) : (configAddr bus slot 0 0).toNat = 2147483648 + bus.toNat * 65536 + slot.toNat * 2048 := by
  rw [UInt8.lt_iff_toNat_lt] at small
  change slot.toNat < 32 at small
  have bound := bus.toNat_lt
  unfold configAddr
  simp only [UInt32.toNat_or, UInt32.toNat_shiftLeft, UInt8.toNat_toUInt32]
  have first : 1 <<< 31 ||| bus.toNat <<< 16 = (32768 + bus.toNat) <<< 16 := by
    rw [← Nat.shiftLeft_add_eq_or_of_lt (by rw [Nat.shiftLeft_eq]; omega), Nat.shiftLeft_eq, Nat.shiftLeft_eq, Nat.shiftLeft_eq]
    omega
  have second : (32768 + bus.toNat) <<< 16 ||| slot.toNat <<< 11 = 2147483648 + bus.toNat * 65536 + slot.toNat * 2048 := by
    rw [← Nat.shiftLeft_add_eq_or_of_lt (by rw [Nat.shiftLeft_eq]; omega), Nat.shiftLeft_eq, Nat.shiftLeft_eq]
    omega
  have high : bus.toNat <<< (16 % 32) % 2 ^ 32 = bus.toNat <<< 16 :=
    Nat.mod_eq_of_lt (by change bus.toNat <<< 16 < 4294967296; rw [Nat.shiftLeft_eq]; omega)
  have low : slot.toNat <<< (11 % 32) % 2 ^ 32 = slot.toNat <<< 11 :=
    Nat.mod_eq_of_lt (by change slot.toNat <<< 11 < 4294967296; rw [Nat.shiftLeft_eq]; omega)
  change ((1 <<< 31 ||| bus.toNat <<< (16 % 32) % 2 ^ 32) ||| slot.toNat <<< (11 % 32) % 2 ^ 32) ||| 0 ||| 0 = _
  rw [high, low, first, second, Nat.or_zero, Nat.or_zero]

theorem smallSpace_answers {bus slot : UInt8} (small : slot < 32) (answers : absent smallSpace bus slot 0 = false) :
    (⟨bus, slot, 0⟩ : Place) ∈ smallPlaces := by
  have address := configAddr_toNat bus small
  rw [UInt8.lt_iff_toNat_lt] at small
  change slot.toNat < 32 at small
  have value (a : UInt32) (same : configAddr bus slot 0 0 = a) : a.toNat = 2147483648 + bus.toNat * 65536 + slot.toNat * 2048 := same ▸ address
  have place (b s : UInt8) (bus' : bus.toNat = b.toNat) (slot' : slot.toNat = s.toNat) : (⟨bus, slot, 0⟩ : Place) = ⟨b, s, 0⟩ := by
    rw [UInt8.toNat_inj.mp bus', UInt8.toNat_inj.mp slot']
  have away (n : Nat) (a : UInt32) (known : a.toNat = n) (other : n % 2048 ≠ 0) : configAddr bus slot 0 0 ≠ a := by
    intro same
    have := value a same
    omega
  unfold absent configRead smallSpace at answers
  rw [if_neg (away 2147483660 0x8000000C rfl (by decide)), if_neg (away 2147485708 0x8000080C rfl (by decide)),
    if_neg (away 2147485720 0x80000818 rfl (by decide)), if_neg (away 2147549192 0x80010008 rfl (by decide)),
    if_neg (away 2147549196 0x8001000C rfl (by decide))] at answers
  split at answers
  · next same =>
    have : (2147483648 : Nat) = _ := value _ same
    rw [place 0 0 (show _ = 0 by omega) (show _ = 0 by omega)]
    decide
  · split at answers
    · next same =>
      have : (2147485696 : Nat) = _ := value _ same
      rw [place 0 1 (show _ = 0 by omega) (show _ = 1 by omega)]
      decide
    · split at answers
      · next same =>
        have : (2147549184 : Nat) = _ := value _ same
        rw [place 1 0 (show _ = 1 by omega) (show _ = 0 by omega)]
        decide
      · cases answers

theorem smallSpace_present (present : Present smallSpace p) : p ∈ smallPlaces := by
  obtain ⟨bus, slot, func⟩ := p
  obtain ⟨small, -, answers, others⟩ := present
  have place := smallSpace_answers small answers
  have single : multifunc smallSpace bus slot = false := by
    simp only [smallPlaces, List.mem_cons, Place.mk.injEq, List.not_mem_nil, or_false, and_true] at place
    rcases place with ⟨rfl, rfl⟩ | ⟨rfl, rfl⟩ | ⟨rfl, rfl⟩ <;> decide +kernel
  have zero : func = 0 := by
    by_contra nonzero
    have many := (others nonzero).1
    rw [single] at many
    cases many
  rw [zero]
  exact place

theorem smallSpace_tree : BusTree smallSpace := by
  have bridgeOnly : ∀ p ∈ smallPlaces, bridge smallSpace p = true → p = ⟨0, 1, 0⟩ := by decide +kernel
  constructor
  · intro p present _ isBridge
    rw [bridgeOnly p (smallSpace_present present) isBridge]
    decide +kernel
  · intro p q present _ isBridge present' _ isBridge' _
    rw [bridgeOnly p (smallSpace_present present) isBridge, bridgeOnly q (smallSpace_present present') isBridge']

theorem pciInit_enumerates_small :
    ∃ t, (∀ fuel, 256 ≤ fuel → pciInit smallSpace fuel ⟨fun _ => ⟨0, 0, 0, 0, 0, 0, 0, 0, fun _ => 0, false, 0, 0⟩, 0⟩ = some t) ∧ t.ndevices ≤ 64 ∧
      (∀ p, Present smallSpace p → OnTree smallSpace p.bus → ∃! i, i < t.ndevices ∧ Entry smallSpace p (t.devices i)) ∧
      (∀ i, i < t.ndevices → ∃ p, Present smallSpace p ∧ OnTree smallSpace p.bus ∧ Entry smallSpace p (t.devices i)) ∧
      ∀ classCode subclass progIf,
        ((∃ i, pciFind classCode subclass progIf t = some i) ↔
          ∃ p, Present smallSpace p ∧ OnTree smallSpace p.bus ∧ Codes smallSpace p classCode subclass progIf) ∧
        ∀ i, pciFind classCode subclass progIf t = some i →
          i < t.ndevices ∧ (t.devices i).classCode = classCode ∧ (t.devices i).subclass = subclass ∧ (t.devices i).progIf = progIf :=
  pciInit_enumerates smallSpace_tree ⟨smallPlaces, by decide, fun _ present _ => smallSpace_present present⟩ _

end SwiftBSD.Proof.Hal
