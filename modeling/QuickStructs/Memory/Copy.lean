import QuickStructs.Lib.Bytes
import QuickStructs.Lib.Loop

/-!
# The memory functions

`Memcpy`, `Memmove` and `Strcpy`, byte by byte. A read or a write outside the memory ends the
call with `none`; otherwise it returns what the function returns, and the memory after it.

The memory does not reach to the end of the address space, so that no pointer wraps; a
count wraps only where the loop has ended and it is not looked at again.
-/

namespace QuickStructs.Bytes

open Lib

abbrev Mem := Memory UInt8

/-- `while (n--) *to++ = *from++;` -/
def copyUp (m : Mem) (toPtr fromPtr : Nat) : Nat → Option Mem
  | 0 => some m
  | n + 1 => (m.assign toPtr fromPtr).bind fun m => copyUp m (toPtr + 1) (fromPtr + 1) n

/-- `while (n--) *--to = *--from;` -/
def copyDown (m : Mem) (toPtr fromPtr : Nat) : Nat → Option Mem
  | 0 => some m
  | n + 1 => (m.assign (toPtr - 1) (fromPtr - 1)).bind fun m =>
    copyDown m (toPtr - 1) (fromPtr - 1) n

/-- `Memmove` -/
def memmove (m : Mem) (dst src n : Nat) : Option (Nat × Mem) :=
  if src = 0 ∨ dst = 0 ∨ n = 0 then some (dst, m)
  else
    let toPtr := dst
    let fromPtr := src
    if toPtr < fromPtr then (copyUp m toPtr fromPtr n).map fun m => (dst, m)
    else if fromPtr < toPtr then
      let toPtr := toPtr + n
      let fromPtr := fromPtr + n
      (copyDown m toPtr fromPtr n).map fun m => (dst, m)
    else some (dst, m)

/-- The variables of `Memcpy`. -/
structure Vars where
  mem : Mem
  toPtr : Nat
  fromPtr : Nat
  n : Nat

/-- `while (n >= 8)`: eight assignments in each round, then the pointers move. -/
def copyBlocks (m : Mem) (toPtr fromPtr : Nat) : Nat → Option Vars
  | n + 8 =>
    (m.assign (toPtr + 0) (fromPtr + 0)).bind fun m =>
    (m.assign (toPtr + 1) (fromPtr + 1)).bind fun m =>
    (m.assign (toPtr + 2) (fromPtr + 2)).bind fun m =>
    (m.assign (toPtr + 3) (fromPtr + 3)).bind fun m =>
    (m.assign (toPtr + 4) (fromPtr + 4)).bind fun m =>
    (m.assign (toPtr + 5) (fromPtr + 5)).bind fun m =>
    (m.assign (toPtr + 6) (fromPtr + 6)).bind fun m =>
    (m.assign (toPtr + 7) (fromPtr + 7)).bind fun m =>
    copyBlocks m (toPtr + 8) (fromPtr + 8) n
  | n => some ⟨m, toPtr, fromPtr, n⟩

/-- `Memcpy` -/
def memcpy (m : Mem) (dst src n : Nat) : Option (Nat × Mem) :=
  let toPtr := dst
  let fromPtr := src
  (copyBlocks m toPtr fromPtr n).bind fun s =>
  (copyUp s.mem s.toPtr s.fromPtr s.n).map fun m => (dst, m)

/-- The plain loop: byte `i` from `src` to `dst`, for `i = 0 .. n - 1`. -/
def byteLoop (m : Mem) (dst src n : Nat) : Option Mem :=
  (List.range n).foldlM (fun m i => m.assign (dst + i) (src + i)) m

/-! ## Strings -/

/-- Where the loop of `Strcpy` stands: a read or a write outside the memory, the pointers with
which it goes on, or its end. -/
inductive Progress where
  | fault
  | copying (m : Mem) (dst src : Nat)
  | ended (m : Mem)

/-- `*dst++ = *src++`, and the test of the byte it has copied. -/
def copyByte (m : Mem) (dst src : Nat) : Progress :=
  match m.load src with
  | some c =>
    match m.store dst c with
    | some m => if c ≠ 0 then .copying m (dst + 1) (src + 1) else .ended m
    | none => .fault
  | none => .fault

/-- One round of the loop. -/
def Progress.round : Progress → Option Progress
  | .copying m dst src => some (copyByte m dst src)
  | _ => none

/-- `while ((*dst++ = *src++))`, for at most `k` rounds. -/
def copyString (m : Mem) (dst src k : Nat) : Progress :=
  Loop.iterate Progress.round k (.copying m dst src)

/-- `Strcpy`, if its loop ends within `k` rounds. -/
def strcpy (m : Mem) (dst src k : Nat) : Option (Nat × Mem) :=
  let result := dst
  match copyString m dst src k with
  | .ended m => some (result, m)
  | _ => none

end QuickStructs.Bytes
