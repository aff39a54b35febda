import SwiftBSD.Mm.Pmm

namespace SwiftBSD.Mm
open Lib

/-- A store of 32 bits to word `i` of a frame. -/
def setLow (phys : UInt64) (i : Nat) (value : UInt32) : MmM Unit := do
  let old ← word phys i
  setWord phys i (old &&& 0xFFFFFFFF00000000 ||| value.toUInt64)

/-- The addresses are those of `page_pml4`, `page_pdpt` and `page_pd`. -/
def setupPaging (pml4 pdpt pd : UInt64) : MmM Unit := do
  setLow pml4 0 (pdpt.toUInt32 + 7)
  setLow pdpt 0 (pd.toUInt32 + 7)
  forRange (fun i => setLow pd i (0x83 + 0x200000 * .ofNat i)) 0 64

end SwiftBSD.Mm
