import SwiftBSD.Lib.Ring
import SwiftBSD.Vfs.Pipe

namespace SwiftBSD.Proof.Vfs
open Lib Lib.Ring SwiftBSD.Vfs

variable {p p' : Pipe} {bytes : List UInt8}

def level (p : Pipe) : Nat := (p.wpos - p.rpos).toNat

def contents (p : Pipe) : List UInt8 := window p.buf.get 4096 p.rpos.toNat (level p)

theorem toNat_pipeBufSize : pipeBufSize.toNat = 4096 := rfl

theorem toNat_off (pos : UInt32) : (pos % pipeBufSize).toNat = pos.toNat % 4096 := by
  rw [UInt32.toNat_mod, toNat_pipeBufSize]

theorem edge_toNat (pos n : UInt32) (fits : n.toNat ≤ 4096) :
    (pos % pipeBufSize + n ≤ pipeBufSize ↔ pos.toNat % 4096 + n.toNat ≤ 4096) ∧
    (pipeBufSize - pos % pipeBufSize).toNat = 4096 - pos.toNat % 4096 := by
  have off := toNat_off pos
  have small := Nat.mod_lt pos.toNat (by decide : 0 < 4096)
  constructor
  · rw [UInt32.le_iff_toNat_le, UInt32.toNat_add, off, toNat_pipeBufSize, Nat.mod_eq_of_lt (by omega)]
  · rw [UInt32.toNat_sub_of_le _ _ (UInt32.le_iff_toNat_le.mpr (by rw [off, toNat_pipeBufSize]; omega)), off,
      toNat_pipeBufSize]

theorem read_window (b : Bytes 4096) (pos n : UInt32) (fits : n.toNat ≤ 4096) :
    (if pos % pipeBufSize + n ≤ pipeBufSize then b.read (pos % pipeBufSize).toNat n.toNat
      else b.read (pos % pipeBufSize).toNat (pipeBufSize - pos % pipeBufSize).toNat ++
        b.read 0 (n - (pipeBufSize - pos % pipeBufSize)).toNat) = window b.get 4096 pos.toNat n.toNat := by
  obtain ⟨inside, first⟩ := edge_toNat pos n fits
  rw [read_pieces (by decide) fits, first, toNat_off]
  by_cases edge : pos.toNat % 4096 + n.toNat ≤ 4096
  · rw [if_pos (inside.mpr edge), if_pos edge]
  · have rest : (n - (pipeBufSize - pos % pipeBufSize)).toNat = n.toNat - (4096 - pos.toNat % 4096) := by
      rw [UInt32.toNat_sub_of_le _ _ (UInt32.le_iff_toNat_le.mpr (by omega)), first]
    rw [if_neg (mt inside.mp edge), if_neg edge, rest]

theorem write_spliced (b : Bytes 4096) (pos n : UInt32) (fits : n.toNat ≤ 4096) (length : bytes.length = n.toNat) :
    Spliced b.get (if pos % pipeBufSize + n ≤ pipeBufSize then b.write (pos % pipeBufSize).toNat bytes
      else (b.write (pos % pipeBufSize).toNat (bytes.take (pipeBufSize - pos % pipeBufSize).toNat)).write 0
        (bytes.drop (pipeBufSize - pos % pipeBufSize).toNat)).get 4096 pos.toNat bytes := by
  obtain ⟨inside, first⟩ := edge_toNat pos n fits
  have spliced := @spliced_pieces 4096 pos.toNat b bytes (by decide) (by omega)
  rw [first, toNat_off]
  by_cases edge : pos.toNat % 4096 + n.toNat ≤ 4096
  · rw [if_pos (by omega)] at spliced
    rw [if_pos (inside.mpr edge)]
    exact spliced
  · rw [if_neg (by omega)] at spliced
    rw [if_neg (mt inside.mp edge)]
    exact spliced

structure Delivered (p p' : Pipe) (c c' : PipeRead) (bytes : List UInt8) : Prop where
  queue : contents p = bytes ++ contents p'
  level : level p' + bytes.length = level p
  length : bytes.length = min c.sz.toNat (Proof.Vfs.level p)
  sz : c'.sz.toNat + bytes.length = c.sz.toNat
  total : c'.total.toNat = (c.total.toNat + bytes.length) % 2 ^ 32
  out : c'.out = c.out ++ bytes

theorem toNat_least (a b : UInt32) : (if a < b then a else b).toNat = min a.toNat b.toNat := by
  split
  · next less => rw [Nat.min_eq_left (UInt32.lt_iff_toNat_lt.mp less).le]
  · next more => rw [Nat.min_eq_right (UInt32.le_iff_toNat_le.mp (UInt32.not_lt.mp more))]

theorem contents_advance {n : UInt32} (enough : n.toNat ≤ level p) :
    level { p with rpos := p.rpos + n } + n.toNat = level p ∧
    contents p = window p.buf.get 4096 p.rpos.toNat n.toNat ++ contents { p with rpos := p.rpos + n } := by
  have left : level { p with rpos := p.rpos + n } + n.toNat = level p := by
    simp only [level, UInt32.toNat_sub, UInt32.toNat_add] at enough ⊢
    have := p.wpos.toNat_lt
    have := p.rpos.toNat_lt
    omega
  refine ⟨left, ?_⟩
  unfold contents
  rw [← left, Nat.add_comm, window_add, UInt32.toNat_add, window_mod (by decide)]

theorem pipeReadIter_moved {c c' : PipeRead} (bound : level p ≤ 4096)
    (iter : pipeReadIter p c = .moved p' bytes c') : Delivered p p' c c' bytes := by
  unfold pipeReadIter at iter
  split at iter
  · cases iter
  dsimp only at iter
  split at iter
  · split at iter <;> cases iter
  · have least := toNat_least c.sz (p.wpos - p.rpos)
    generalize (if c.sz < p.wpos - p.rpos then c.sz else p.wpos - p.rpos) = n at iter least
    have enough : n.toNat ≤ level p := by unfold level; omega
    obtain ⟨left, split⟩ := contents_advance enough
    rw [read_window p.buf p.rpos n (by omega)] at iter
    injection iter with pipe moved call
    subst pipe moved call
    refine ⟨split, by rw [length_window]; exact left, by rw [length_window]; exact least, ?_, ?_, rfl⟩
    · rw [length_window, UInt32.toNat_sub_of_le _ _ (UInt32.le_iff_toNat_le.mpr (by omega))]
      omega
    · rw [length_window, UInt32.toNat_add]

structure Accepted (p p' : Pipe) (c c' : PipeWrite) (bytes : List UInt8) : Prop where
  queue : contents p' = contents p ++ bytes
  level : level p' = level p + bytes.length
  length : bytes.length = min c.buf.length (4096 - Proof.Vfs.level p)
  bound : Proof.Vfs.level p' ≤ 4096
  buf : c.buf = bytes ++ c'.buf
  total : c'.total.toNat = (c.total.toNat + bytes.length) % 2 ^ 32

theorem contents_extend {n : UInt32} {buf : Bytes 4096} (room : level p + n.toNat ≤ 4096) (length : bytes.length = n.toNat)
    (spliced : Spliced p.buf.get buf.get 4096 p.wpos.toNat bytes) :
    level { p with buf, wpos := p.wpos + n } = level p + n.toNat ∧
    contents { p with buf, wpos := p.wpos + n } = contents p ++ bytes := by
  have more : level { p with buf, wpos := p.wpos + n } = level p + n.toNat := by
    simp only [level, UInt32.toNat_sub, UInt32.toNat_add] at room ⊢
    have := p.wpos.toNat_lt
    have := p.rpos.toNat_lt
    omega
  have place : p.wpos.toNat = (p.rpos.toNat + level p) % 2 ^ 32 := by
    simp only [level, UInt32.toNat_sub]
    have := p.wpos.toNat_lt
    have := p.rpos.toNat_lt
    omega
  rw [place] at spliced
  have spliced := spliced.of_mod (by decide)
  refine ⟨more, ?_⟩
  unfold contents
  rw [more, window_add, spliced.window_old (by omega), ← length, spliced.window_new]

theorem pipeWriteIter_moved {c c' : PipeWrite} (bound : level p ≤ 4096) (fits : c.buf.length < 2 ^ 32)
    (iter : pipeWriteIter p c = .moved p' bytes c') : Accepted p p' c c' bytes := by
  unfold pipeWriteIter at iter
  dsimp only at iter
  split at iter
  · cases iter
  split at iter
  · split at iter <;> cases iter
  · have least := toNat_least (.ofNat c.buf.length) (pipeBufSize - (p.wpos - p.rpos))
    have size : (UInt32.ofNat c.buf.length).toNat = c.buf.length := by
      rw [UInt32.toNat_ofNat', Nat.mod_eq_of_lt fits]
    have space : (pipeBufSize - (p.wpos - p.rpos)).toNat = 4096 - level p :=
      UInt32.toNat_sub_of_le _ _ (UInt32.le_iff_toNat_le.mpr bound)
    generalize (if UInt32.ofNat c.buf.length < pipeBufSize - (p.wpos - p.rpos) then UInt32.ofNat c.buf.length
      else pipeBufSize - (p.wpos - p.rpos)) = n at iter least
    have length : (c.buf.take n.toNat).length = n.toNat := by
      rw [List.length_take]
      omega
    have spliced := write_spliced p.buf p.wpos n (by omega) length
    obtain ⟨more, queue⟩ := contents_extend (by omega) length spliced
    injection iter with pipe moved call
    subst pipe moved call
    refine ⟨queue, by rw [length]; exact more, by rw [length, least, size, space], by rw [more]; omega, (List.take_append_drop _ _).symm, ?_⟩
    rw [length, UInt32.toNat_add]

def movedIn (events : List PipeEvent) (id : Nat) : List UInt8 := events.flatMap (·.movedBy id)

def deliveredIn (events : List PipeEvent) : List UInt8 := events.flatMap (·.delivered)

def acceptedIn (events : List PipeEvent) : List UInt8 := events.flatMap (·.accepted)

/-- A call counts what it has moved, and what it moves in all fits in 32 bits. -/
def PipeCall.Counts (moved : List UInt8) : PipeCall → Prop
  | .reading c => c.out = moved ∧ c.total.toNat = moved.length ∧ moved.length + c.sz.toNat < 2 ^ 32
  | .writing c => c.total.toNat = moved.length ∧ moved.length + c.buf.length < 2 ^ 32
  | .returned _ => True

structure Queue (events : List PipeEvent) (s : PipeSys) : Prop where
  bound : level s.pipe ≤ 4096
  fifo : acceptedIn events = deliveredIn events ++ contents s.pipe
  counts : ∀ id call, s.calls[id]? = some call → PipeCall.Counts (movedIn events id) call
  fresh : ∀ id, s.calls.length ≤ id → movedIn events id = []

section Events
variable {events : List PipeEvent} {s t : PipeSys} {e : PipeEvent} {id : Nat}

theorem movedIn_snoc : movedIn (events ++ [e]) id = movedIn events id ++ e.movedBy id := by
  simp [movedIn]

theorem deliveredIn_snoc : deliveredIn (events ++ [e]) = deliveredIn events ++ e.delivered := by
  simp [deliveredIn]

theorem acceptedIn_snoc : acceptedIn (events ++ [e]) = acceptedIn events ++ e.accepted := by
  simp [acceptedIn]

theorem Queue.quiet (queue : Queue events s) (accepted : e.accepted = []) (delivered : e.delivered = [])
    (moved : ∀ id, e.movedBy id = []) : Queue (events ++ [e]) s := by
  have same (id : Nat) : movedIn (events ++ [e]) id = movedIn events id := by
    rw [movedIn_snoc, moved, List.append_nil]
  refine ⟨queue.bound, ?_, fun id call found => ?_, fun id later => ?_⟩
  · rw [acceptedIn_snoc, deliveredIn_snoc, accepted, delivered, List.append_nil, List.append_nil]
    exact queue.fifo
  · rw [same]
    exact queue.counts id call found
  · rw [same]
    exact queue.fresh id later

theorem Queue.begin {call : PipeCall} (queue : Queue events s) (counts : PipeCall.Counts [] call) :
    Queue events { s with calls := s.calls ++ [call] } := by
  refine ⟨queue.bound, queue.fifo, fun id old found => ?_, fun id later => ?_⟩
  · rcases Nat.lt_or_ge id s.calls.length with before | after
    · rw [List.getElem?_append_left before] at found
      exact queue.counts id old found
    · rw [List.getElem?_append_right after] at found
      obtain ⟨-, rfl⟩ : id - s.calls.length = 0 ∧ call = old := by
        simpa [List.getElem?_singleton] using found
      rw [queue.fresh id after]
      exact counts
  · apply queue.fresh
    simp only [List.length_append, List.length_cons] at later
    omega

theorem Queue.iterate {old call : PipeCall} {pipe : Pipe} (queue : Queue events s) (running : s.calls[id]? = some old)
    (others : ∀ other, other ≠ id → e.movedBy other = []) (bound : level pipe ≤ 4096)
    (fifo : contents s.pipe ++ e.accepted = e.delivered ++ contents pipe)
    (counts : PipeCall.Counts (movedIn events id ++ e.movedBy id) call) :
    Queue (events ++ [e]) ⟨pipe, s.calls.set id call⟩ := by
  have inside : id < s.calls.length := (List.getElem?_eq_some_iff.mp running).1
  refine ⟨bound, ?_, fun other found member => ?_, fun other later => ?_⟩
  · rw [acceptedIn_snoc, deliveredIn_snoc, queue.fifo, List.append_assoc, List.append_assoc, fifo]
  · rw [movedIn_snoc]
    by_cases same : id = other
    · subst same
      rw [List.getElem?_set_self inside] at member
      obtain rfl := Option.some.inj member
      exact counts
    · rw [List.getElem?_set_ne same] at member
      rw [others other (Ne.symm same), List.append_nil]
      exact queue.counts other found member
  · rw [List.length_set] at later
    rw [movedIn_snoc, others other (by omega), List.append_nil]
    exact queue.fresh other later

theorem Queue.step (queue : Queue events s) (step : PipeStep s e t) : Queue (events ++ [e]) t := by
  cases step with
  | read sz =>
      have begun : Queue events { s with calls := s.calls ++ [.reading ⟨sz, 0, []⟩] } :=
        queue.begin ⟨rfl, rfl, by simpa using sz.toNat_lt⟩
      exact begun.quiet rfl rfl fun _ => rfl
  | write buf fits =>
      have begun : Queue events { s with calls := s.calls ++ [.writing ⟨buf, 0⟩] } :=
        queue.begin ⟨rfl, by simpa using fits⟩
      exact begun.quiet rfl rfl fun _ => rfl
  | readYield | writeYield => exact queue.quiet rfl rfl fun _ => rfl
  | readMoved running iter =>
      obtain ⟨out, total, small⟩ := queue.counts _ _ running
      have delivered := pipeReadIter_moved queue.bound iter
      refine queue.iterate running (fun other differs => if_neg (Ne.symm differs)) ?_ ?_ ?_
      · have := delivered.level
        have := queue.bound
        omega
      · simpa [PipeEvent.accepted, PipeEvent.delivered] using delivered.queue
      · have sz := delivered.sz
        rw [PipeEvent.movedBy, if_pos rfl]
        refine ⟨by rw [delivered.out, out], ?_, ?_⟩
        · rw [delivered.total, total, List.length_append, Nat.mod_eq_of_lt (by omega)]
        · rw [List.length_append]
          omega
  | writeMoved running iter =>
      obtain ⟨total, small⟩ := queue.counts _ _ running
      have accepted := pipeWriteIter_moved queue.bound (by omega) iter
      refine queue.iterate running (fun other differs => if_neg (Ne.symm differs)) accepted.bound ?_ ?_
      · simpa [PipeEvent.accepted, PipeEvent.delivered] using accepted.queue.symm
      · have length := congrArg List.length accepted.buf
        rw [List.length_append] at length
        rw [PipeEvent.movedBy, if_pos rfl]
        refine ⟨?_, ?_⟩
        · rw [accepted.total, total, List.length_append, Nat.mod_eq_of_lt (by omega)]
        · rw [List.length_append]
          omega
  | readRet running | writeRet running =>
      exact queue.iterate running (fun _ _ => rfl) queue.bound (List.append_nil _) trivial
  | ends readers writers =>
      have changed : Queue events { s with pipe := { s.pipe with readers, writers } } :=
        ⟨queue.bound, queue.fifo, queue.counts, queue.fresh⟩
      exact changed.quiet rfl rfl fun _ => rfl

theorem level_empty (rpos : p.rpos = 0) (wpos : p.wpos = 0) : level p = 0 := by
  rw [level, rpos, wpos]
  rfl

theorem run_queue (run : PipeRun events s) : Queue events s := by
  induction run with
  | start rpos wpos =>
      refine ⟨by rw [level_empty rpos wpos]; omega, ?_, fun id call found => ?_, fun _ _ => rfl⟩
      · rw [contents, level_empty rpos wpos]
        rfl
      · cases found
  | step _ step queue => exact queue.step step

theorem toInt_eq_iff {x : UInt32} {n : Nat} (count : x.toNat = n) : toInt x = n ↔ n < 2 ^ 31 := by
  have small := x.toNat_lt
  unfold toInt Int.bmod
  dsimp only
  split <;> omega

theorem toInt_of_ge {x : UInt32} (large : 2 ^ 31 ≤ x.toNat) : toInt x = x.toNat - 2 ^ 32 := by
  have small := x.toNat_lt
  unfold toInt Int.bmod
  dsimp only
  split <;> omega

/-- What a call that returns should return: the number of bytes it has moved, or `-1` for a write that could move
none because the pipe is full and has no reader. -/
def dueValue (p : Pipe) (moved : List UInt8) : PipeCall → Int
  | .writing c => if moved = [] ∧ c.buf ≠ [] ∧ level p = 4096 ∧ p.readers = 0 then -1 else moved.length
  | _ => moved.length

theorem pipeReadIter_ret {c : PipeRead} {value : Int} (iter : pipeReadIter p c = .ret value) :
    value = toInt c.total := by
  unfold pipeReadIter at iter
  split at iter
  · exact (Iter.ret.inj iter).symm
  · dsimp only at iter
    split at iter
    · split at iter
      · exact (Iter.ret.inj iter).symm
      · cases iter
    · cases iter

theorem pipeWriteIter_ret {c : PipeWrite} {value : Int} (bound : level p ≤ 4096) (fits : c.buf.length < 2 ^ 32)
    (iter : pipeWriteIter p c = .ret value) :
    c.buf = [] ∧ value = toInt c.total ∨
      c.buf ≠ [] ∧ level p = 4096 ∧ p.readers = 0 ∧ value = if 0 < c.total then toInt c.total else -1 := by
  have size : UInt32.ofNat c.buf.length = 0 ↔ c.buf = [] := by
    rw [← UInt32.toNat_inj, UInt32.toNat_ofNat', Nat.mod_eq_of_lt fits]
    exact List.length_eq_zero_iff
  have full : pipeBufSize - (p.wpos - p.rpos) = 0 ↔ level p = 4096 := by
    have space : (pipeBufSize - (p.wpos - p.rpos)).toNat = 4096 - level p :=
      UInt32.toNat_sub_of_le _ _ (UInt32.le_iff_toNat_le.mpr bound)
    rw [← UInt32.toNat_inj, space, UInt32.toNat_zero]
    omega
  unfold pipeWriteIter at iter
  dsimp only at iter
  split at iter
  · next empty => exact .inl ⟨size.mp empty, (Iter.ret.inj iter).symm⟩
  · next nonempty =>
      split at iter
      · next none =>
          split at iter
          · next closed => exact .inr ⟨mt size.mpr nonempty, full.mp none, closed, (Iter.ret.inj iter).symm⟩
          · cases iter
      · cases iter

/-- The pipe as a queue, over every run; and a call that returns returns the value that is due exactly if what it has
moved is a number that an `int` can hold. -/
theorem pipe_fifo (run : PipeRun events s) :
    (s.pipe.wpos - s.pipe.rpos).toNat ≤ 4096 ∧ acceptedIn events = deliveredIn events ++ contents s.pipe ∧
    ∀ id call value t, s.calls[id]? = some call → PipeStep s (.ret id value) t →
      (value = dueValue s.pipe (movedIn events id) call ↔ (movedIn events id).length < 2 ^ 31) := by
  have queue := run_queue run
  refine ⟨queue.bound, queue.fifo, fun id call value t found step => ?_⟩
  cases step with
  | readRet running iter =>
      obtain rfl := Option.some.inj (running.symm.trans found)
      obtain ⟨-, total, -⟩ := queue.counts _ _ running
      rw [pipeReadIter_ret iter]
      exact toInt_eq_iff total
  | writeRet running iter =>
      obtain rfl := Option.some.inj (running.symm.trans found)
      obtain ⟨total, small⟩ := queue.counts _ _ running
      rcases pipeWriteIter_ret queue.bound (by omega) iter with ⟨empty, due⟩ | ⟨more, full, closed, due⟩
      · rw [due, dueValue, if_neg (by simp [empty])]
        exact toInt_eq_iff total
      · simp only [UInt32.lt_iff_toNat_lt, total, UInt32.toNat_zero] at due
        by_cases none : movedIn events id = []
        · rw [if_neg (by simp [none])] at due
          rw [due, dueValue, if_pos ⟨none, more, full, closed⟩, none]
          simp
        · rw [if_pos (List.length_pos_iff.mpr none)] at due
          rw [due, dueValue, if_neg fun wrong => none wrong.1]
          exact toInt_eq_iff total

theorem pipe_fifo_write : ∃ s t, PipeRun [.call, .accept 0 [1, 2, 3]] s ∧ PipeStep s (.ret 0 3) t ∧
    contents s.pipe = [1, 2, 3] ∧ (3 : Int) = dueValue s.pipe [1, 2, 3] (.writing ⟨[], 3⟩) := by
  have opened : PipeRun [] ⟨⟨.zero, 0, 0, 1, 1⟩, []⟩ := .start rfl rfl
  have called : PipeRun [.call] ⟨⟨.zero, 0, 0, 1, 1⟩, [.writing ⟨[1, 2, 3], 0⟩]⟩ :=
    opened.step (.write [1, 2, 3] (by decide))
  have iter : pipeWriteIter ⟨.zero, 0, 0, 1, 1⟩ ⟨[1, 2, 3], 0⟩ =
      .moved ⟨Bytes.zero.write 0 [1, 2, 3], 0, 3, 1, 1⟩ [1, 2, 3] ⟨[], 3⟩ := rfl
  have wrote : PipeRun [.call, .accept 0 [1, 2, 3]] ⟨⟨Bytes.zero.write 0 [1, 2, 3], 0, 3, 1, 1⟩, [.writing ⟨[], 3⟩]⟩ :=
    called.step (.writeMoved rfl iter)
  have done : pipeWriteIter ⟨Bytes.zero.write 0 [1, 2, 3], 0, 3, 1, 1⟩ ⟨[], 3⟩ = .ret 3 :=
    congrArg Iter.ret ((toInt_eq_iff rfl).mpr (by decide) : toInt 3 = (3 : Nat))
  have returns : PipeStep ⟨⟨Bytes.zero.write 0 [1, 2, 3], 0, 3, 1, 1⟩, [.writing ⟨[], 3⟩]⟩ (.ret 0 3)
    ⟨⟨Bytes.zero.write 0 [1, 2, 3], 0, 3, 1, 1⟩, [.returned 3]⟩ := .writeRet rfl done
  have queue := pipe_fifo wrote
  exact ⟨_, _, wrote, returns, queue.2.1.symm, (queue.2.2 0 _ 3 _ rfl returns).mpr (by decide)⟩

end Events

theorem pipeReadIter_moves {c : PipeRead} (more : 0 < c.sz.toNat) (filled : 0 < level p) :
    ∃ p' bytes c', pipeReadIter p c = .moved p' bytes c' := by
  have sz : c.sz ≠ 0 := fun zero => by rw [zero] at more; exact Nat.lt_irrefl 0 more
  have avail : p.wpos - p.rpos ≠ 0 := fun zero => by rw [level, zero] at filled; exact Nat.lt_irrefl 0 filled
  unfold pipeReadIter
  rw [if_neg sz]
  dsimp only
  rw [if_neg avail]
  exact ⟨_, _, _, rfl⟩

theorem pipeWriteIter_moves {c : PipeWrite} (more : 0 < c.buf.length) (fits : c.buf.length < 2 ^ 32)
    (room : level p < 4096) : ∃ p' bytes c', pipeWriteIter p c = .moved p' bytes c' := by
  have space : (pipeBufSize - (p.wpos - p.rpos)).toNat = 4096 - level p :=
    UInt32.toNat_sub_of_le _ _ (UInt32.le_iff_toNat_le.mpr room.le)
  unfold pipeWriteIter
  dsimp only
  rw [if_neg, if_neg]
  · exact ⟨_, _, _, rfl⟩
  · intro zero
    rw [zero, UInt32.toNat_zero] at space
    omega
  · intro zero
    have := congrArg UInt32.toNat zero
    rw [UInt32.toNat_ofNat', Nat.mod_eq_of_lt fits, UInt32.toNat_zero] at this
    omega

/-- A read and a write of `2 ^ 31` bytes, after `k` rounds in which the writer fills the pipe and the reader empties
it. -/
theorem long_transfer (k : Nat) (upper : k ≤ 2 ^ 19) : ∃ events p c d,
    PipeRun events ⟨p, [.reading c, .writing d]⟩ ∧ level p = 0 ∧ c.sz.toNat + 4096 * k = 2 ^ 31 ∧
    d.buf.length + 4096 * k = 2 ^ 31 ∧ (movedIn events 0).length = 4096 * k := by
  induction k with
  | zero =>
      obtain ⟨sz, size⟩ : ∃ sz : UInt32, sz.toNat = 2 ^ 31 := ⟨2147483648, rfl⟩
      obtain ⟨buf, length⟩ : ∃ buf : List UInt8, buf.length = 2 ^ 31 := ⟨.replicate _ 0, List.length_replicate⟩
      obtain ⟨p, rpos, wpos⟩ : ∃ p : Pipe, p.rpos = 0 ∧ p.wpos = 0 := ⟨⟨.zero, 0, 0, 1, 1⟩, rfl, rfl⟩
      have reading : PipeRun [.call] ⟨p, [.reading ⟨sz, 0, []⟩]⟩ := (PipeRun.start rpos wpos).step (.read sz)
      have writing : PipeRun [.call, .call] ⟨p, [.reading ⟨sz, 0, []⟩, .writing ⟨buf, 0⟩]⟩ :=
        reading.step (.write buf (by omega))
      exact ⟨_, p, _, _, writing, level_empty rpos wpos, by simpa using size, by simpa using length, rfl⟩
  | succ k ih =>
      obtain ⟨events, p, c, d, run, empty, left, rest, moved⟩ := ih (by omega)
      obtain ⟨p₁, bytes₁, d', iter₁⟩ := @pipeWriteIter_moves p d (by omega) (by omega) (by omega)
      have accepted := pipeWriteIter_moved (by omega) (by omega) iter₁
      have length₁ := accepted.length
      have level₁ := accepted.level
      have split := congrArg List.length accepted.buf
      rw [List.length_append] at split
      obtain ⟨p₂, bytes₂, c', iter₂⟩ := @pipeReadIter_moves p₁ c (by omega) (by omega)
      have delivered := pipeReadIter_moved accepted.bound iter₂
      have length₂ := delivered.length
      have level₂ := delivered.level
      have sz := delivered.sz
      have wrote : PipeRun (events ++ [.accept 1 bytes₁]) ⟨p₁, [.reading c, .writing d']⟩ :=
        run.step (.writeMoved rfl iter₁)
      have read : PipeRun (events ++ [.accept 1 bytes₁] ++ [.deliver 0 bytes₂]) ⟨p₂, [.reading c', .writing d']⟩ :=
        wrote.step (.readMoved rfl iter₂)
      refine ⟨_, p₂, c', d', read, by omega, by omega, by omega, ?_⟩
      rw [movedIn_snoc, movedIn_snoc, List.length_append, List.length_append, moved]
      simp only [PipeEvent.movedBy, if_true, Nat.one_ne_zero, if_false, List.length_nil]
      omega

/-- A read that has moved `2 ^ 31` bytes returns a negative number. -/
theorem long_read_returns_negative : ∃ events s c t, PipeRun events s ∧ s.calls[0]? = some (.reading c) ∧
    (movedIn events 0).length = 2147483648 ∧ PipeStep s (.ret 0 (-2147483648)) t ∧
    dueValue s.pipe (movedIn events 0) (.reading c) = 2147483648 := by
  obtain ⟨events, p, c, d, run, -, left, -, moved⟩ := long_transfer (2 ^ 19) (Nat.le_refl _)
  have done : c.sz = 0 := by
    apply UInt32.toNat_inj.mp
    rw [UInt32.toNat_zero]
    omega
  have counts : PipeCall.Counts (movedIn events 0) (.reading c) := (run_queue run).counts 0 _ rfl
  have total := counts.2.1
  have value : toInt c.total = -2147483648 := by
    have large := @toInt_of_ge c.total (by omega)
    omega
  have iter : pipeReadIter p c = .ret (-2147483648) := by
    rw [pipeReadIter, if_pos done, value]
  refine ⟨events, _, c, _, run, rfl, moved, .readRet rfl iter, ?_⟩
  rw [dueValue, moved]
  · rfl
  · intro d impossible
    cases impossible

end SwiftBSD.Proof.Vfs
