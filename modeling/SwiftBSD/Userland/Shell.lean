import SwiftBSD.Lib.Chars

namespace SwiftBSD.Userland.Shell
open Lib

def slash : UInt8 := 0x2f

def dot : UInt8 := 0x2e

/-- The local arrays of `normalize_path`, which nothing initialises, and `pos`. -/
structure Work where
  buf : Bytes 256
  comp : Bytes 256
  pos : Nat

/-- `while (rel[ci] && rel[ci] != '/' && ci < 255)`: what is left of `rel`, `ci` and `comp`. -/
def takeName : List UInt8 → Nat → Bytes 256 → Option (List UInt8 × Nat × Bytes 256)
  | [], ci, comp => some ([], ci, comp)
  | c :: rel, ci, comp =>
      if c = slash ∨ 255 ≤ ci then some (c :: rel, ci, comp) else do takeName rel (ci + 1) (← comp.store ci c)

/-- `while (pos > 0 && buf[pos-1] != '/') pos--;` -/
def backUp (buf : Bytes 256) : Nat → Option Nat
  | 0 => some 0
  | pos + 1 => do
      if (← buf.load pos) = slash then return pos + 1
      backUp buf pos

/-- The name in `comp`, of `ci` characters, behind the path so far; false when it does not fit. -/
def Work.append (w : Work) (ci : Nat) : Option (Bool × Work) := do
  let need := decide (0 < w.pos) && (← w.buf.load (w.pos - 1)) != slash
  if 255 ≤ w.pos + need.toNat + ci then return (false, w)
  let buf ← if need then w.buf.store w.pos slash else pure w.buf
  let pos := w.pos + need.toNat
  let buf ← w.comp.copyBytes buf pos ci
  return (true, { w with buf := buf, pos := pos + ci })

/-- The three cases for a component. -/
def Work.component (w : Work) (ci : Nat) : Option (Bool × Work) := do
  if ci = 1 ∧ (← w.comp.load 0) = dot then
    return (true, w)
  else if ci = 2 ∧ (← w.comp.load 0) = dot ∧ (← w.comp.load 1) = dot then
    if 1 < w.pos then
      return (true, { w with pos := ← backUp w.buf (w.pos - 1) })
    else
      return (true, w)
  else
    w.append ci

/-- `while (*rel)` -/
def walk : Nat → List UInt8 → Work → Option Work
  | 0, _, _ => none
  | fuel + 1, rel, w => do
      match rel.dropWhile (· == slash) with
      | [] => return w
      | c :: rest =>
          let (rel, ci, comp) ← takeName (c :: rest) 0 w.comp
          let comp ← comp.store ci 0
          let (more, w) ← { w with comp := comp }.component ci
          if more then walk fuel rel w else return w

/-- The path before the first component, and what is left of `rel`. -/
def base (cwd : Bytes 256) (rel : List UInt8) (w : Work) : Option (List UInt8 × Work) :=
  if rel.head? = some slash then do
    return (rel.tail, { w with buf := ← w.buf.store 0 slash, pos := 1 })
  else do
    let (j, buf) ← cwd.copyString 255 256 0 w.buf
    return (rel, { w with buf := buf, pos := j })

/-- What is in `out` behind `normalize_path(rel, out)`. -/
def normalizePath (cwd : Bytes 256) (rel : List UInt8) (w : Work) (out : Bytes 256) : Option (Bytes 256) := do
  if rel = [] then
    (← out.store 0 slash).store 1 0
  else
    let (rel, w) ← base cwd rel w
    let w ← walk (rel.length + 1) rel w
    let buf ← w.buf.store w.pos 0
    let out ← buf.copyBytes out 0 (min (w.pos + 1) 255)
    out.store 255 0

/-- `static char cwd[256] = "/";` -/
def root : Bytes 256 := Bytes.zero.write 0 [slash]

/-- `cd`, with what its arrays held before. -/
def cd (cwd : Bytes 256) (args : List UInt8) (w : Work) (out : Bytes 256) : Option (Bytes 256) := do
  let out ← normalizePath cwd args w out
  let (j, cwd) ← out.copyString 256 256 0 cwd
  cwd.store j 0

/-- A current directory that `cd` commands lead to. -/
inductive Reached : Bytes 256 → Prop
  | root : Reached root
  | cd {cwd next : Bytes 256} {args : List UInt8} {w : Work} {out : Bytes 256} : Reached cwd → 0 ∉ args →
      cd cwd args w out = some next → Reached next

def space : UInt8 := 0x20

def exitWord : List UInt8 := [0x65, 0x78, 0x69, 0x74]

def haltWord : List UInt8 := [0x68, 0x61, 0x6c, 0x74]

def quitWord : List UInt8 := [0x71, 0x75, 0x69, 0x74]

def cdWord : List UInt8 := [0x63, 0x64]

def freeWord : List UInt8 := [0x66, 0x72, 0x65, 0x65]

def memWord : List UInt8 := [0x6d, 0x65, 0x6d]

def lsWord : List UInt8 := [0x6c, 0x73]

/-- `"/bin/"` -/
def binDir : List UInt8 := [slash, 0x62, 0x69, 0x6e, slash]

/-- What the shell does with a line. -/
inductive Command
  /-- back to the prompt -/
  | prompt
  | exit
  | halt
  | cd (cwd : Bytes 256)
  | meminfo
  /-- `exec(path, ARGS_PAGE)` in a child, with the first 256 bytes of the arguments -/
  | exec (path : Bytes 64) (args : Bytes 256)

/-- The local arrays of `_start`, which nothing initialises, and the page of arguments. -/
structure Locals where
  work : Work
  buf : Bytes 256
  path : Bytes 64
  page : Bytes 256

/-- `"/bin/"`, up to 56 characters of the name, and a NUL behind the whole name. -/
def programPath (cmd : List UInt8) (path : Bytes 64) : Option (Bytes 64) := do
  let (_, path) ← Bytes.copyChars 5 0 binDir 0 path
  let (_, path) ← Bytes.copyChars 56 5 cmd 0 path
  path.store (5 + cmd.length) 0

/-- `ARGS_PAGE`; a bare `ls` gets the current directory. -/
def copyArgs (cwd : Bytes 256) (cmd args : List UInt8) (page : Bytes 256) : Option (Bytes 256) := do
  let (i, page) ← if cmd = lsWord ∧ args = [] then cwd.copyString 255 256 0 page else Bytes.copyChars 255 0 args 0 page
  page.store i 0

/-- The words of the line, and what the shell does with them. -/
def dispatch (cwd : Bytes 256) (line : List UInt8) (l : Locals) : Option Command := do
  let p := line.dropWhile (· == space)
  if p = [] then return .prompt
  let cmd := p.takeWhile (· != space)
  let args := (p.dropWhile (· != space)).dropWhile (· == space)
  if cmd = exitWord then return .exit
  if cmd = haltWord then return .halt
  if cmd = quitWord then return .exit
  if cmd = cdWord then return .cd (← cd cwd args l.work l.buf)
  if cmd = freeWord ∨ cmd = memWord then return .meminfo
  let path ← programPath cmd l.path
  return .exec path (← copyArgs cwd cmd args l.page)

end SwiftBSD.Userland.Shell
