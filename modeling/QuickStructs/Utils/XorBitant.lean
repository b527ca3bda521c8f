/-!
# The random bit generator

`XorBitant` keeps one 64-bit word. A call replaces it by three xor-shift steps of it, and
returns the low half of the new word times a constant.
-/

namespace QuickStructs.XorBitant

def MAGIC_MULTIPLIER : BitVec 64 := 0x9E3779B97F4A7C15#64

def MAGIC_SEED : BitVec 64 := 0xDEADBEEFBABECAFE#64

/-- `XorBitant`. -/
structure Generator where
  mState : BitVec 64 := MAGIC_SEED
  deriving DecidableEq, Repr

/-- `min()` -/
def Generator.min : BitVec 32 := 0

/-- `max()`, which is `std::numeric_limits<std::uint32_t>::max()`. -/
def Generator.max : BitVec 32 := 0xFFFFFFFF#32

/-- The state after `x`. -/
def update (x : BitVec 64) : BitVec 64 :=
  let x := x ^^^ x <<< 13
  let x := x ^^^ x >>> 7
  x ^^^ x <<< 5

/-- `operator()` -/
def Generator.call (g : Generator) : BitVec 32 × Generator :=
  let x := update g.mState
  ((x * MAGIC_MULTIPLIER).setWidth 32, { mState := x })

/-- The generator after a number of calls. -/
def Generator.after (g : Generator) : Nat → Generator
  | 0 => g
  | k + 1 => (g.after k).call.2

/-- What the call after the first `k` returns. -/
def Generator.answer (g : Generator) (k : Nat) : BitVec 32 := (g.after k).call.1

end QuickStructs.XorBitant
