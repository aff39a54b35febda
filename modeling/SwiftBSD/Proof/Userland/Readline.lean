import SwiftBSD.Userland.Readline

namespace SwiftBSD.Proof.Userland
open Lib SwiftBSD.Userland.Readline

variable {e t next : Editor} {lines : List (List UInt8)} {s line input rest : List UInt8} {buf saved src : Bytes 256} {n k : Nat}
  {history : Nat → Bytes 256}

def kept (lines : List (List UInt8)) (k : Nat) : List UInt8 := (lines[k]?.getD []).takeWhile (· != 0)

structure Editing (e : Editor) (lines : List (List UInt8)) : Prop where
  index : 0 ≤ e.i ∧ e.i ≤ 255
  recalled : -1 ≤ e.hb ∧ e.hb < e.historyCount
  count : e.historyCount = min 16 lines.length
  rows : ∀ k < 16, (e.history k).Holds (kept lines k)
  short : ∀ line ∈ lines, line.length ≤ 254
  draft : 0 ≤ e.hb → ∃ s, e.saved.Holds s ∧ s.length ≤ 254

theorem kept_short (short : ∀ line ∈ lines, line.length ≤ 254) (k : Nat) : (kept lines k).length ≤ 254 := by
  unfold kept
  refine (List.takeWhile_sublist _).length_le.trans ?_
  cases found : lines[k]? with
  | none => exact Nat.zero_le _
  | some line => exact short line (List.mem_of_getElem? found)

theorem shift_eq {s : Nat → List UInt8} (small : n < 16) (rows : ∀ k ≤ n, (history k).Holds (s k)) :
    ∃ moved, shift n history = some moved ∧ (∀ k, k = 0 ∨ n < k → moved k = history k) ∧ ∀ k < n, (moved (k + 1)).Holds (s k) := by
  induction n generalizing history with
  | zero => exact ⟨history, rfl, fun _ _ => rfl, fun _ wrong => absurd wrong (Nat.not_lt_zero _)⟩
  | succ n ih =>
      have here := rows n (by omega)
      have fits := here.fits
      have whole : (s n).take 255 = s n := List.take_of_length_le (by omega)
      have source : row history n = some (history n) := if_pos ⟨by omega, by omega⟩
      have target : row history (n + 1 : Int) = some (history (n + 1)) := if_pos ⟨by omega, by omega⟩
      rw [shift, source, target]
      simp only [Option.bind_eq_bind, Option.bind_some]
      rw [Bytes.copyString_eq here (by rw [whole]; omega), whole]
      simp only [Option.bind_some]
      rw [Bytes.store_of_lt fits]
      simp only [Option.bind_some]
      have written := Bytes.holds_write (b := history (n + 1)) fits here.plain
      generalize ((history (n + 1)).write 0 (s n)).write (s n).length [0] = dst at written
      obtain ⟨moved, run, same, further⟩ := @ih (Function.update history (n + 1) dst) (by omega) fun k lower => by
        rw [Function.update_of_ne (by omega)]
        exact rows k (by omega)
      refine ⟨moved, run, fun k outside => ?_, fun k inside => ?_⟩
      · rw [same k (by omega), Function.update_of_ne (by omega)]
      · rcases Nat.lt_or_ge k n with less | last
        · exact further k less
        · obtain rfl : k = n := by omega
          rw [same (k + 1) (by omega), Function.update_self]
          exact written

theorem historyAdd_eq (editing : Editing e lines) (len : n ≤ 254) (chars : buf.read 0 n = line) :
    ∃ history, historyAdd buf n e = some { e with history := history, historyCount := min 16 (line :: lines).length } ∧
      ∀ k < 16, (history k).Holds (kept (line :: lines) k) := by
  obtain ⟨moved, run, same, further⟩ := shift_eq (n := 15) (s := kept lines) (by decide) fun k inside => editing.rows k (by omega)
  have j : (min (n : Int) 255).toNat = n := by omega
  have first : row moved 0 = some (moved 0) := if_pos ⟨by decide, by decide⟩
  have length : line.length = n := by rw [← chars, Bytes.length_read]
  have total : (if e.historyCount < 16 then e.historyCount + 1 else e.historyCount) = min 16 (line :: lines).length := by
    have := editing.count
    rw [List.length_cons]
    split <;> omega
  rw [historyAdd, run, j]
  simp only [Option.bind_eq_bind, Option.bind_some, Option.pure_def]
  rw [first]
  simp only [Option.bind_some]
  rw [Bytes.copyBytes_eq _ _ (by omega) (by omega), chars]
  simp only [Option.bind_some]
  rw [Bytes.store_of_lt (by omega), total]
  simp only [Option.bind_some]
  refine ⟨_, rfl, fun k inside => ?_⟩
  cases k with
  | zero =>
      rw [Function.update_self, ← length]
      refine Bytes.holds_takeWhile (l := line) (by omega) ?_ ?_
      · rw [Bytes.read_write_disjoint _ _ (.inl (by omega)), Bytes.read_write_same _ _ _ (by omega)]
      · rw [Bytes.get_write, if_pos ⟨le_rfl, by simp, by omega⟩, Nat.sub_self]
        rfl
  | succ k =>
      rw [Function.update_of_ne (by omega)]
      exact further k (by omega)

theorem replaceLine_eq (holds : src.Holds s) (e : Editor) :
    ∃ buf, replaceLine src e = some { e with buf := buf, i := s.length } ∧ buf.read 0 s.length = s := by
  have fits := holds.fits
  have whole : s.take 256 = s := List.take_of_length_le (by omega)
  rw [replaceLine, Bytes.copyString_eq holds (by rw [whole]; omega), whole, Bytes.strlen_eq holds]
  exact ⟨_, rfl, Bytes.read_write_same e.buf 0 s (by omega)⟩

theorem showRow_eq (rows : ∀ k < 16, (e.history k).Holds (kept lines k)) (here : e.hb = k) (small : k < 16) :
    ∃ buf, showRow e = some { e with buf := buf, i := (kept lines k).length } := by
  have found : row e.history e.hb = some (e.history k) := by
    rw [here]
    exact if_pos ⟨by omega, by omega⟩
  obtain ⟨buf, run, -⟩ := replaceLine_eq (rows k small) e
  rw [showRow, found]
  exact ⟨buf, run⟩

theorem up_first (editing : Editing e lines) (less : e.i < 255) (edited : e.hb = -1) :
    ∃ saved, saved.Holds ((e.buf.read 0 e.i.toNat).takeWhile (· != 0)) ∧
      if 0 < e.historyCount then ∃ buf, up e = some { e with saved := saved, hb := 0, buf := buf, i := (kept lines 0).length }
      else up e = some { e with saved := saved } := by
  have low := editing.index.1
  have j : (min e.i 256).toNat = e.i.toNat := by omega
  have length : (e.buf.read 0 e.i.toNat).length = e.i.toNat := Bytes.length_read _ _ _
  have draft : ((e.saved.write 0 (e.buf.read 0 e.i.toNat)).write e.i.toNat [0]).Holds ((e.buf.read 0 e.i.toNat).takeWhile (· != 0)) := by
    refine Bytes.holds_takeWhile (by omega) ?_ ?_
    · rw [Bytes.read_write_disjoint _ _ (.inl (by omega)), Bytes.read_write_same _ _ _ (by omega)]
    · rw [Bytes.get_write, if_pos ⟨by omega, by simp only [List.length_singleton]; omega, by omega⟩, length, Nat.sub_self]
      rfl
  have step : up e = if 0 < e.historyCount then showRow { e with saved := (e.saved.write 0 (e.buf.read 0 e.i.toNat)).write e.i.toNat [0], hb := 0 }
      else some { e with saved := (e.saved.write 0 (e.buf.read 0 e.i.toNat)).write e.i.toNat [0] } := by
    rw [up, if_pos edited, j]
    dsimp only
    rw [Bytes.copyBytes_eq _ _ (by omega) (by omega)]
    simp only [Option.bind_eq_bind, Option.bind_some]
    rw [Bytes.store_of_lt (by omega)]
    rfl
  refine ⟨_, draft, ?_⟩
  rw [step]
  split
  · exact showRow_eq editing.rows rfl (by decide)
  · rfl

theorem up_further (editing : Editing e lines) {h : Nat} (shown : e.hb = h) (more : h + 1 < e.historyCount) :
    ∃ buf, up e = some { e with hb := h + 1, buf := buf, i := (kept lines (h + 1)).length } := by
  have count := editing.count
  obtain ⟨buf, run⟩ := showRow_eq (e := { e with hb := e.hb + 1 }) (k := h + 1) editing.rows (by change e.hb + 1 = _; omega) (by omega)
  rw [up, if_neg (by omega), if_pos (by omega), run, shown]
  exact ⟨buf, rfl⟩

theorem up_last (shown : 0 ≤ e.hb) (last : (e.historyCount : Int) ≤ e.hb + 1) : up e = some e := by
  rw [up, if_neg (by omega), if_neg (by omega)]
  rfl

theorem down_further (editing : Editing e lines) {h : Nat} (shown : e.hb = h + 1) :
    ∃ buf, down e = some { e with hb := h, buf := buf, i := (kept lines h).length } := by
  have count := editing.count
  have inside := editing.recalled.2
  obtain ⟨buf, run⟩ := showRow_eq (e := { e with hb := e.hb - 1 }) (k := h) editing.rows (by change e.hb - 1 = _; omega) (by omega)
  rw [down, if_pos (by omega), run, shown]
  exact ⟨buf, by rw [Int.add_sub_cancel]⟩

theorem down_draft (holds : e.saved.Holds s) (shown : e.hb = 0) :
    ∃ buf, down e = some { e with hb := -1, buf := buf, i := s.length } ∧ buf.read 0 s.length = s := by
  obtain ⟨buf, run, chars⟩ := replaceLine_eq holds { e with hb := -1 }
  rw [down, if_neg (by omega), if_pos shown, run]
  exact ⟨buf, rfl, chars⟩

theorem down_edited (edited : e.hb = -1) : down e = some e := by
  rw [down, if_neg (by omega), if_neg (by omega)]
  rfl

theorem takeWhile_short (b : Bytes 256) (small : n ≤ 254) : ((b.read 0 n).takeWhile (· != 0)).length ≤ 254 := by
  have := (List.takeWhile_sublist (· != (0 : UInt8)) (l := b.read 0 n)).length_le
  rw [Bytes.length_read] at this
  omega

namespace Editing

theorem show_row (editing : Editing e lines) (inside : k < e.historyCount) (draft : ∃ s, saved.Holds s ∧ s.length ≤ 254) (buf : Bytes 256) :
    Editing { e with saved := saved, hb := k, buf := buf, i := (kept lines k).length } lines where
  index := ⟨Int.natCast_nonneg _, by have := kept_short editing.short k; change ((kept lines k).length : Int) ≤ 255; omega⟩
  recalled := ⟨by change -1 ≤ (k : Int); omega, by change (k : Int) < e.historyCount; omega⟩
  count := editing.count
  rows := editing.rows
  short := editing.short
  draft _ := draft

theorem keep_up (editing : Editing e lines) (less : e.i < 255) : ∃ t, up e = some t ∧ Editing t lines := by
  have recalled := editing.recalled
  rcases Int.lt_or_le e.hb 0 with edited | shown
  · obtain ⟨saved, holds, run⟩ := up_first editing less (by omega)
    have draft : ∃ s, saved.Holds s ∧ s.length ≤ 254 := ⟨_, holds, takeWhile_short e.buf (by omega)⟩
    split at run
    · next some_ =>
      obtain ⟨buf, run⟩ := run
      exact ⟨_, run, editing.show_row some_ draft buf⟩
    · exact ⟨_, run, editing.index, recalled, editing.count, editing.rows, editing.short, fun _ => draft⟩
  · obtain ⟨h, here⟩ := Int.eq_ofNat_of_zero_le shown
    rcases Nat.lt_or_ge (h + 1) e.historyCount with more | last
    · obtain ⟨buf, run⟩ := up_further editing here more
      exact ⟨_, run, editing.show_row more (editing.draft shown) buf⟩
    · exact ⟨e, up_last shown (by omega), editing⟩

theorem keep_down (editing : Editing e lines) : ∃ t, down e = some t ∧ Editing t lines := by
  have recalled := editing.recalled
  rcases Int.lt_or_le e.hb 0 with edited | shown
  · exact ⟨e, down_edited (by omega), editing⟩
  · obtain ⟨h, here⟩ := Int.eq_ofNat_of_zero_le shown
    cases h with
    | zero =>
        obtain ⟨s, holds, small⟩ := editing.draft shown
        obtain ⟨buf, run, -⟩ := down_draft holds here
        refine ⟨_, run, ⟨Int.natCast_nonneg _, ?_⟩, ⟨le_rfl, ?_⟩, editing.count, editing.rows, editing.short, fun _ => ⟨s, holds, small⟩⟩
        · change (s.length : Int) ≤ 255
          omega
        · change (-1 : Int) < e.historyCount
          omega
    | succ h =>
        obtain ⟨buf, run⟩ := down_further editing (h := h) here
        exact ⟨_, run, editing.show_row (by omega) (editing.draft shown) buf⟩

theorem keep_escape (editing : Editing e lines) (less : e.i < 255) (s0 s1 : UInt8) : ∃ t, escape s0 s1 e = some t ∧ Editing t lines := by
  unfold escape
  split
  · exact editing.keep_up less
  · split
    · exact editing.keep_down
    · exact ⟨e, rfl, editing⟩

end Editing

/-- What one iteration leaves: the loop goes on with its invariant, or the call ends, and a line that is not empty is in the history. -/
def Kept (e : Editor) (lines : List (List UInt8)) : Outcome → Prop
  | .more t => Editing t lines
  | .broken t => t = e
  | .line t => ∀ buf saved next, openLine buf saved t = some next → Editing next (if 0 < e.i then e.buf.read 0 e.i.toNat :: lines else lines)

theorem put_eq (b : Bytes 256) {i : Int} (low : 0 ≤ i) (high : i < 256) (c : UInt8) : put b i c = some (b.write i.toNat [c]) := by
  rw [put, if_pos low, Bytes.store_of_lt (by omega)]

theorem no_draft {p : Prop} (wrong : (0 : Int) ≤ -1) : p := absurd wrong (by decide)

theorem openLine_editing (count : e.historyCount = min 16 lines.length) (rows : ∀ k < 16, (e.history k).Holds (kept lines k))
    (short : ∀ line ∈ lines, line.length ≤ 254) (started : openLine buf saved e = some next) : Editing next lines := by
  rw [openLine, Bytes.store_of_lt (by decide)] at started
  obtain rfl := Option.some.inj started
  exact ⟨⟨le_rfl, show (0 : Int) ≤ 255 by decide⟩, ⟨le_rfl, by change (-1 : Int) < e.historyCount; omega⟩, count, rows, short, no_draft⟩

theorem step_kept (editing : Editing e lines) (less : e.i < 255) (input : List UInt8) :
    ∃ outcome rest, step e input = some (outcome, rest) ∧ Kept e lines outcome ∧ (input ≠ [] → rest.length < input.length) := by
  have low := editing.index.1
  cases input with
  | nil => exact ⟨_, _, rfl, rfl, fun wrong => absurd rfl wrong⟩
  | cons c rest =>
      unfold step
      simp only [Option.bind_eq_bind, Option.pure_def]
      split
      · rw [put_eq e.buf low (by omega)]
        simp only [Option.bind_some]
        split
        · next some_ =>
          have chars : (e.buf.write e.i.toNat [0]).read 0 e.i.toNat = e.buf.read 0 e.i.toNat := Bytes.read_write_disjoint _ _ (.inl (by omega))
          have len : ((e.i.toNat : Nat) : Int) = e.i := Int.toNat_of_nonneg low
          obtain ⟨history, run, rows⟩ := historyAdd_eq (e := { e with buf := e.buf.write e.i.toNat [0] })
            ⟨editing.index, editing.recalled, editing.count, editing.rows, editing.short, editing.draft⟩ (n := e.i.toNat) (by omega) chars
          rw [len] at run
          rw [run]
          refine ⟨_, _, rfl, ?_, fun _ => Nat.lt_succ_self _⟩
          intro buf saved next started
          refine openLine_editing (by rw [if_pos some_]) (by rw [if_pos some_]; exact rows) ?_ started
          rw [if_pos some_]
          intro line member
          rcases List.mem_cons.mp member with rfl | member
          · rw [Bytes.length_read]
            omega
          · exact editing.short line member
        · next none =>
          refine ⟨_, _, rfl, ?_, fun _ => Nat.lt_succ_self _⟩
          intro buf saved next started
          rw [if_neg none]
          exact openLine_editing editing.count editing.rows editing.short started
      · split
        · refine ⟨_, _, rfl, ⟨?_, ⟨le_rfl, ?_⟩, editing.count, editing.rows, editing.short, no_draft⟩,
            fun _ => Nat.lt_succ_self _⟩
          · dsimp only
            split <;> omega
          · change (-1 : Int) < e.historyCount
            omega
        · split
          · rcases rest with _ | ⟨s0, _ | ⟨s1, rest⟩⟩
            · exact ⟨_, _, rfl, editing, fun _ => Nat.succ_pos _⟩
            · exact ⟨_, _, rfl, editing, fun _ => Nat.succ_pos _⟩
            · obtain ⟨t, run, after⟩ := editing.keep_escape less s0 s1
              dsimp only
              rw [run]
              exact ⟨_, _, rfl, after, fun _ => by simp only [List.length_cons]; omega⟩
          · rw [put_eq e.buf low (by omega)]
            refine ⟨_, _, rfl, ⟨?_, ⟨le_rfl, ?_⟩, editing.count, editing.rows, editing.short, no_draft⟩,
              fun _ => Nat.lt_succ_self _⟩
            · dsimp only
              omega
            · change (-1 : Int) < e.historyCount
              omega

theorem session_editing (session : Session e lines) : Editing e lines := by
  induction session with
  | @start buf saved e started =>
      refine openLine_editing (e := ⟨buf, saved, 0, -1, fun _ => .zero, 0⟩) rfl (fun k _ => ?_) (fun _ none => absurd none List.not_mem_nil) started
      exact ⟨Nat.zero_lt_succ _, rfl, Bytes.get_zero _, List.not_mem_nil⟩
  | @more e e' lines input rest _ less run ih =>
      obtain ⟨outcome, left, same, kept, -⟩ := step_kept ih less input
      obtain ⟨rfl, -⟩ := Prod.mk.inj (Option.some.inj (run.symm.trans same))
      exact kept
  | @line e e' next lines input rest buf saved _ less run started ih =>
      obtain ⟨outcome, left, same, kept, -⟩ := step_kept ih less input
      obtain ⟨rfl, -⟩ := Prod.mk.inj (Option.some.inj (run.symm.trans same))
      exact kept buf saved next started
  | @broken e e' next lines input rest buf saved _ less run started ih =>
      obtain ⟨outcome, left, same, kept, -⟩ := step_kept ih less input
      obtain ⟨rfl, -⟩ := Prod.mk.inj (Option.some.inj (run.symm.trans same))
      rw [kept] at started
      exact openLine_editing ih.count ih.rows ih.short started
  | full _ _ started ih => exact openLine_editing ih.count ih.rows ih.short started

theorem finish_some (editing : Editing e lines) : ∃ t, finish e = some t := by
  have index := editing.index
  rw [finish, put_eq e.buf index.1 (by omega)]
  exact ⟨_, rfl⟩

theorem readline_some (editing : Editing e lines) (input : List UInt8) : ∃ t rest, readline (input.length + 1) e input = some (t, rest) := by
  have main (fuel : Nat) (e : Editor) (input : List UInt8) (editing : Editing e lines) (enough : input.length < fuel) :
      ∃ t rest, readline fuel e input = some (t, rest) := by
    induction fuel generalizing e input with
    | zero => omega
    | succ fuel ih =>
        obtain ⟨t, ending⟩ := finish_some editing
        rw [readline]
        split
        · rw [ending]
          exact ⟨t, input, rfl⟩
        · obtain ⟨outcome, rest, run, kept, shorter⟩ := step_kept editing (by omega) input
          rw [run]
          cases outcome with
          | more u =>
              by_cases empty : input = []
              · rw [empty] at run
                cases run
              · exact ih u rest kept (by have := shorter empty; omega)
          | broken u =>
              obtain rfl : u = e := kept
              simp only [Option.bind_eq_bind, Option.bind_some, ending]
              exact ⟨t, rest, rfl⟩
          | line u => exact ⟨u, rest, rfl⟩
  exact main _ e input editing (Nat.lt_succ_self _)

/-- The loop goes from one state to another on part of the input. -/
inductive Typed : Editor → List UInt8 → Editor → List UInt8 → Prop
  | refl {e : Editor} {input : List UInt8} : Typed e input e input
  | step {e e' t : Editor} {input rest left : List UInt8} : e.i < 255 → step e input = some (.more e', rest) → Typed e' rest t left →
      Typed e input t left

theorem Typed.trans {u : Editor} {left : List UInt8} (first : Typed e input t rest) (second : Typed t rest u left) : Typed e input u left := by
  induction first with
  | refl => exact second
  | step less run _ ih => exact .step less run (ih second)

def upKey : List UInt8 := [0x1b, 0x5b, 0x41]

def downKey : List UInt8 := [0x1b, 0x5b, 0x42]

def times (key : List UInt8) (k : Nat) : List UInt8 := (List.replicate k key).flatten

theorem times_succ (key : List UInt8) (k : Nat) : times key (k + 1) = key ++ times key k := rfl

theorem step_up (run : up e = some t) (rest : List UInt8) : step e (upKey ++ rest) = some (.more t, rest) := by
  have key : escape 0x5b 0x41 e = some t := by rw [escape, if_pos ⟨rfl, rfl⟩, run]
  change (escape 0x5b 0x41 e).bind (fun t => some (Outcome.more t, rest)) = _
  rw [key]
  rfl

theorem step_down (run : down e = some t) (rest : List UInt8) : step e (downKey ++ rest) = some (.more t, rest) := by
  have key : escape 0x5b 0x42 e = some t := by rw [escape, if_neg (by decide), if_pos ⟨rfl, rfl⟩, run]
  change (escape 0x5b 0x42 e).bind (fun t => some (Outcome.more t, rest)) = _
  rw [key]
  rfl

/-- The state after some presses of Up: the draft is saved once a row is shown. -/
structure Above (e : Editor) (k : Nat) (t : Editor) : Prop where
  shown : t.hb = (min k e.historyCount : Nat) - 1
  count : t.historyCount = e.historyCount
  draft : 0 ≤ t.hb → t.saved.Holds (e.buf.read 0 e.i.toNat)
  same : t.hb = -1 → t.i = e.i ∧ t.buf = e.buf
  less : t.i < 255

theorem ups_typed (editing : Editing e lines) (less : e.i < 255) (edited : e.hb = -1) (plain : 0 ∉ e.buf.read 0 e.i.toNat) (k : Nat)
    (rest : List UInt8) : ∃ t, Typed e (times upKey k ++ rest) t rest ∧ Editing t lines ∧ Above e k t := by
  induction k generalizing rest with
  | zero => exact ⟨e, .refl, editing, by rw [edited, Nat.zero_min]; rfl, rfl, fun shown => absurd shown (by omega), fun _ => ⟨rfl, rfl⟩, less⟩
  | succ k ih =>
      have snoc : times upKey (k + 1) ++ rest = times upKey k ++ (upKey ++ rest) := by
        rw [times, List.replicate_succ', List.flatten_append, List.flatten_singleton, List.append_assoc]
        rfl
      obtain ⟨t, typed, after, above⟩ := ih (upKey ++ rest)
      have draftIs : (e.buf.read 0 e.i.toNat).takeWhile (· != 0) = e.buf.read 0 e.i.toNat :=
        Bytes.takeWhile_plain (fun c other => bne_iff_ne.mpr other) plain
      obtain ⟨u, run, more⟩ := after.keep_up above.less
      refine ⟨u, snoc ▸ typed.trans (.step above.less (step_up run rest) .refl), more, ?_⟩
      have shown := above.shown
      have count := above.count
      have recalled := after.recalled
      rcases Int.lt_or_le t.hb 0 with low | high
      · have here : t.hb = -1 := by omega
        obtain ⟨saved, holds, first⟩ := up_first after above.less here
        obtain ⟨index, buf⟩ := above.same here
        rw [index, buf, draftIs] at holds
        split at first
        · next some_ =>
          obtain ⟨buf, first⟩ := first
          obtain rfl := Option.some.inj (run.symm.trans first)
          refine ⟨?_, count, fun _ => holds, fun wrong => absurd (show (0 : Int) = -1 from wrong) (by decide), ?_⟩
          · change (0 : Int) = _
            omega
          · have := kept_short after.short 0
            change ((kept lines 0).length : Int) < 255
            omega
        · next none =>
          obtain rfl := Option.some.inj (run.symm.trans first)
          refine ⟨?_, count, fun wrong => absurd wrong (by change ¬0 ≤ t.hb; omega), fun _ => ⟨index, buf⟩, above.less⟩
          change t.hb = _
          omega
      · obtain ⟨h, here⟩ := Int.eq_ofNat_of_zero_le high
        rcases Nat.lt_or_ge (h + 1) t.historyCount with further | last
        · obtain ⟨buf, next_⟩ := up_further after here further
          obtain rfl := Option.some.inj (run.symm.trans next_)
          refine ⟨?_, count, fun _ => above.draft high, fun wrong => ?_, ?_⟩
          · change (h : Int) + 1 = _
            omega
          · change (h : Int) + 1 = -1 at wrong
            omega
          · have := kept_short after.short (h + 1)
            change ((kept lines (h + 1)).length : Int) < 255
            omega
        · obtain rfl := Option.some.inj (run.symm.trans (up_last high (by omega)))
          exact ⟨by omega, count, above.draft, above.same, above.less⟩

theorem downs_typed (editing : Editing t lines) (less : t.i < 255) (k : Nat) (deep : t.hb < k) (s : List UInt8) (small : s.length ≤ 254)
    (draft : 0 ≤ t.hb → t.saved.Holds s) (same : t.hb = -1 → t.i = s.length ∧ t.buf.read 0 s.length = s) (rest : List UInt8) :
    ∃ u, Typed t (times downKey k ++ rest) u rest ∧ u.hb = -1 ∧ u.i = s.length ∧ u.buf.read 0 s.length = s := by
  have recalled := editing.recalled
  induction k generalizing t with
  | zero =>
      have here : t.hb = -1 := by omega
      exact ⟨t, .refl, here, same here⟩
  | succ k ih =>
      rw [times_succ, List.append_assoc]
      obtain ⟨u, run, after⟩ := editing.keep_down
      suffices goal : u.i < 255 ∧ u.hb < k ∧ (0 ≤ u.hb → u.saved.Holds s) ∧ (u.hb = -1 → u.i = s.length ∧ u.buf.read 0 s.length = s) by
        obtain ⟨less', deep', draft', same'⟩ := goal
        obtain ⟨v, typed, back⟩ := ih after less' deep' draft' same' after.recalled
        exact ⟨v, .step less (step_down run _) typed, back⟩
      rcases Int.lt_or_le t.hb 0 with low | high
      · have here : t.hb = -1 := by omega
        obtain rfl := Option.some.inj (run.symm.trans (down_edited here))
        exact ⟨less, by omega, draft, same⟩
      · obtain ⟨h, here⟩ := Int.eq_ofNat_of_zero_le high
        cases h with
        | zero =>
            obtain ⟨buf, back, chars⟩ := down_draft (draft high) here
            obtain rfl := Option.some.inj (run.symm.trans back)
            refine ⟨?_, ?_, no_draft, fun _ => ⟨rfl, chars⟩⟩
            · change (s.length : Int) < 255
              omega
            · change (-1 : Int) < k
              omega
        | succ h =>
            obtain ⟨buf, back⟩ := down_further editing (h := h) here
            obtain rfl := Option.some.inj (run.symm.trans back)
            refine ⟨?_, ?_, fun _ => draft high, fun wrong => ?_⟩
            · have := kept_short editing.short h
              change ((kept lines h).length : Int) < 255
              omega
            · change (h : Int) < k
              omega
            · change (h : Int) = -1 at wrong
              omega

/-- In every state of the loop the indices are in range, the history holds the last lines, the call comes back whatever is typed, and as many
presses of Down as of Up restore the line. -/
theorem session_editor (session : Session e lines) :
    (0 ≤ e.i ∧ e.i ≤ 255) ∧ (-1 ≤ e.hb ∧ e.hb < e.historyCount) ∧ e.historyCount = min 16 lines.length ∧
      (∀ k < e.historyCount, ∃ line, lines[k]? = some line ∧ (e.history k).Holds (line.takeWhile (· != 0))) ∧
      (∀ input, ∃ t rest, readline (input.length + 1) e input = some (t, rest)) ∧
      (e.i < 255 → e.hb = -1 → 0 ∉ e.buf.read 0 e.i.toNat → ∀ k rest, ∃ t, Typed e (times upKey k ++ times downKey k ++ rest) t rest ∧
        t.hb = -1 ∧ t.i = e.i ∧ t.buf.read 0 e.i.toNat = e.buf.read 0 e.i.toNat) := by
  have editing := session_editing session
  refine ⟨editing.index, editing.recalled, editing.count, fun k inside => ?_, readline_some editing, fun less edited plain k rest => ?_⟩
  · have count := editing.count
    have bound : k < lines.length := by omega
    have found : lines[k]? = some lines[k] := List.getElem?_eq_getElem bound
    have holds := editing.rows k (by omega)
    rw [kept, found, Option.getD_some] at holds
    exact ⟨_, found, holds⟩
  · have low := editing.index.1
    obtain ⟨t, upwards, after, above⟩ := ups_typed editing less edited plain k (times downKey k ++ rest)
    have length : ((e.buf.read 0 e.i.toNat).length : Int) = e.i := by rw [Bytes.length_read]; omega
    obtain ⟨u, downwards, back, index, chars⟩ := downs_typed after above.less k (by have := above.shown; omega) (e.buf.read 0 e.i.toNat) (by omega)
      above.draft (fun here => ⟨by rw [length]; exact (above.same here).1, by rw [(above.same here).2, Bytes.length_read]⟩) rest
    rw [Bytes.length_read] at chars
    refine ⟨u, ?_, back, index.trans length, chars⟩
    rw [List.append_assoc]
    exact upwards.trans downwards

def firstPrompt : Editor := ⟨.zero, Bytes.zero.write 0 [0], 0, -1, fun _ => .zero, 0⟩

theorem session_editor_two : ∃ e t, Session e [[0x61]] ∧ Session t [[0x61]] ∧ step e upKey = some (.more t, []) ∧
    (e.i = 1 ∧ e.hb = -1) ∧ (t.i = 1 ∧ t.hb = 0 ∧ t.hb < t.historyCount) ∧ t.historyCount = 1 ∧
    (∃ line, ([[0x61]] : List (List UInt8))[0]? = some line ∧ (t.history 0).Holds (line.takeWhile (· != 0))) ∧
    ∀ k rest, ∃ u, Typed e (times upKey k ++ times downKey k ++ rest) u rest ∧ u.hb = -1 ∧ u.i = e.i ∧
      u.buf.read 0 e.i.toNat = e.buf.read 0 e.i.toNat := by
  obtain ⟨a, ended, next, e, t, typed, end_, opened, typed', up, index, browsed, chars, shown⟩ : ∃ a ended next e t,
      step firstPrompt [0x61] = some (.more a, []) ∧ step a [0x0a] = some (.line ended, []) ∧ openLine .zero .zero ended = some next ∧
      step next [0x62] = some (.more e, []) ∧ step e upKey = some (.more t, []) ∧ e.i = 1 ∧ e.hb = -1 ∧ e.buf.read 0 1 = [0x62] ∧
      t.i = 1 ∧ t.hb = 0 ∧ t.historyCount = 1 := ⟨_, _, _, _, _, rfl, rfl, rfl, rfl, rfl, rfl, rfl, by decide, rfl, rfl, rfl⟩
  have line : a.i = 1 ∧ a.buf.read 0 1 = [0x61] := by
    obtain ⟨-, rfl⟩ : True ∧ a = _ := ⟨trivial, (Outcome.more.inj (Prod.mk.inj (Option.some.inj typed)).1).symm⟩
    exact ⟨rfl, by decide⟩
  have first : Session a [] := .more (@Session.start .zero .zero _ rfl) (by decide) typed
  have second := Session.line first (by rw [line.1]; decide) end_ opened
  rw [line.1, if_pos (by decide), show (1 : Int).toNat = 1 from rfl, line.2] at second
  have zero : next.i = 0 := by
    unfold openLine at opened
    obtain ⟨saved, -, same⟩ := Option.bind_eq_some_iff.mp opened
    cases same
    rfl
  have third : Session e [[0x61]] := .more second (by rw [zero]; decide) typed'
  have last : Session t [[0x61]] := .more third (by rw [index]; decide) up
  obtain ⟨-, ⟨-, inside⟩, -, rows, -, -⟩ := session_editor last
  obtain ⟨-, -, -, -, -, restored⟩ := session_editor third
  refine ⟨e, t, third, last, up, ⟨index, browsed⟩, ⟨shown.1, shown.2.1, inside⟩, shown.2.2, rows 0 (by rw [shown.2.2]; decide), ?_⟩
  refine restored (by rw [index]; decide) browsed ?_
  rw [index, show (1 : Int).toNat = 1 from rfl, chars]
  decide

end SwiftBSD.Proof.Userland
