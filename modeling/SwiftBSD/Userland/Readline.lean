import SwiftBSD.Lib.Chars
import Mathlib.Logic.Function.Basic

namespace SwiftBSD.Userland.Readline
open Lib

/-- The arrays and indices of `readline`, and the static variables. -/
structure Editor where
  buf : Bytes 256
  saved : Bytes 256
  i : Int
  hb : Int
  history : Nat → Bytes 256
  historyCount : Nat

/-- `history[k]`, of 16 lines -/
def row (history : Nat → Bytes 256) (k : Int) : Option (Bytes 256) := if 0 ≤ k ∧ k < 16 then some (history k.toNat) else none

/-- `b[i] = c;` -/
def put (b : Bytes 256) (i : Int) (c : UInt8) : Option (Bytes 256) := if 0 ≤ i then b.store i.toNat c else none

/-- `for (int i = n; i > 0; i--)`, which copies each line into the next place. -/
def shift : Nat → (Nat → Bytes 256) → Option (Nat → Bytes 256)
  | 0, history => some history
  | n + 1, history => do
      let src ← row history n
      let dst ← row history (n + 1)
      let (j, dst) ← src.copyString 255 256 0 dst
      shift n (Function.update history (n + 1) (← dst.store j 0))

def historyAdd (buf : Bytes 256) (len : Int) (e : Editor) : Option Editor := do
  let history ← shift 15 e.history
  let j := (min len 255).toNat
  let first ← buf.copyBytes (← row history 0) 0 j
  let history := Function.update history 0 (← first.store j 0)
  return { e with history := history, historyCount := if e.historyCount < 16 then e.historyCount + 1 else e.historyCount }

/-- The line becomes a string that is held elsewhere. -/
def replaceLine (src : Bytes 256) (e : Editor) : Option Editor := do
  let (_, buf) ← src.copyString 256 256 0 e.buf
  return { e with buf := buf, i := ← src.strlen }

/-- The line becomes `history[hb]`. -/
def showRow (e : Editor) : Option Editor := do replaceLine (← row e.history e.hb) e

def up (e : Editor) : Option Editor := do
  if e.hb = -1 then
    let j := (min e.i 256).toNat
    let saved ← e.buf.copyBytes e.saved 0 j
    let e := { e with saved := ← saved.store j 0 }
    if 0 < e.historyCount then showRow { e with hb := 0 } else return e
  else if e.hb < e.historyCount - 1 then
    showRow { e with hb := e.hb + 1 }
  else
    return e

def down (e : Editor) : Option Editor := do
  if 0 < e.hb then showRow { e with hb := e.hb - 1 }
  else if e.hb = 0 then replaceLine e.saved { e with hb := -1 }
  else return e

/-- The escape sequences `ESC [ A` and `ESC [ B`; others are ignored. -/
def escape (s0 s1 : UInt8) (e : Editor) : Option Editor :=
  if s0 = 0x5b ∧ s1 = 0x41 then up e
  else if s0 = 0x5b ∧ s1 = 0x42 then down e
  else some e

/-- How an iteration of the loop ends. -/
inductive Outcome
  | more (e : Editor)
  /-- `break`, as there is no input -/
  | broken (e : Editor)
  /-- `return i`, at the end of a line -/
  | line (e : Editor)

/-- One iteration, and the input that is left. -/
def step (e : Editor) : List UInt8 → Option (Outcome × List UInt8)
  | [] => some (.broken e, [])
  | c :: rest => do
      if c = 0x0a ∨ c = 0x0d then
        let buf ← put e.buf e.i 0
        let e := { e with buf := buf }
        let e ← if 0 < e.i then historyAdd buf e.i e else pure e
        return (.line e, rest)
      else if c = 0x08 ∨ c = 127 then
        return (.more { e with i := if 0 < e.i then e.i - 1 else e.i, hb := -1 }, rest)
      else if c = 0x1b then
        match rest with
        | s0 :: s1 :: rest => return (.more (← escape s0 s1 e), rest)
        | _ => return (.more e, [])
      else
        let buf ← put e.buf e.i c
        return (.more { e with buf := buf, i := e.i + 1, hb := -1 }, rest)

/-- `buf[i] = 0;` behind the loop -/
def finish (e : Editor) : Option Editor := do return { e with buf := ← put e.buf e.i 0 }

/-- `readline(buf, 256)` from the loop on. -/
def readline : Nat → Editor → List UInt8 → Option (Editor × List UInt8)
  | 0, _, _ => none
  | fuel + 1, e, input => do
      if 255 ≤ e.i then return (← finish e, input)
      match ← step e input with
      | (.more e, rest) => readline fuel e rest
      | (.broken e, rest) => return (← finish e, rest)
      | (.line e, rest) => return (e, rest)

/-- The start of a call, with what `saved` held before. -/
def openLine (buf saved : Bytes 256) (e : Editor) : Option Editor := do
  return { e with buf := buf, saved := ← saved.store 0 0, i := 0, hb := -1 }

/-- The states of the loop in a session of the shell, each with the nonempty lines that have been ended so far, the last first. -/
inductive Session : Editor → List (List UInt8) → Prop
  | start {buf saved : Bytes 256} {e : Editor} : openLine buf saved ⟨buf, saved, 0, -1, fun _ => .zero, 0⟩ = some e → Session e []
  | more {e e' : Editor} {lines : List (List UInt8)} {input rest : List UInt8} : Session e lines → e.i < 255 →
      step e input = some (.more e', rest) → Session e' lines
  | line {e e' next : Editor} {lines : List (List UInt8)} {input rest : List UInt8} {buf saved : Bytes 256} : Session e lines → e.i < 255 →
      step e input = some (.line e', rest) → openLine buf saved e' = some next →
      Session next (if 0 < e.i then e.buf.read 0 e.i.toNat :: lines else lines)
  | broken {e e' next : Editor} {lines : List (List UInt8)} {input rest : List UInt8} {buf saved : Bytes 256} : Session e lines → e.i < 255 →
      step e input = some (.broken e', rest) → openLine buf saved e' = some next → Session next lines
  | full {e next : Editor} {lines : List (List UInt8)} {buf saved : Bytes 256} : Session e lines → 255 ≤ e.i → openLine buf saved e = some next →
      Session next lines

end SwiftBSD.Userland.Readline
