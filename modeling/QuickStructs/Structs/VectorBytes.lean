import QuickStructs.Structs.Vector

/-!
# The vector and the bytes of its buffers

The calls of `Vector` that allocate, over an `operator new` that may throw and may obtain more
than it is asked for. The elements do not throw. A call tells of every growth it has tried, with
the bytes that the growth obtained.
-/

namespace QuickStructs.Vector

open Lib

/-- `::operator new(bytes)`: an exception, or at least so many bytes. It may go by what there is
already. -/
structure OperatorNew (E : Type) where
  obtains : Storage E → Nat → Option Nat
  enough : ∀ s bytes got, obtains s bytes = some got → bytes ≤ got

variable {E : Type} (T : ElementType E) (N : OperatorNew E)

/-- A growth: the storage when it begins, and the bytes it obtains unless it throws. -/
structure Growth (E : Type) where
  before : Storage E
  obtained : Option Nat

/-- How a call ends. -/
structure Ending (E : Type) where
  storage : Storage E
  vec : Vec
  thrown : Bool
  growths : List (Growth E)

/-- Go on, unless there was an exception. -/
def Ending.andThen (e : Ending E) (f : Storage E → Vec → Ending E) : Ending E :=
  if e.thrown then e
  else
    let e' := f e.storage e.vec
    { e' with growths := e.growths ++ e'.growths }

/-- `_allocate`, and the bytes of the buffer. There are none behind null. -/
def allocateWith (s : Storage E) (allocSize : Nat) : Option (Storage E × Nat × Nat) :=
  if allocSize = 0 then some (s, 0, 0)
  else
    (N.obtains s (T.size * allocSize % 2 ^ 64)).map fun got =>
      (s.alloc (got / T.size), s.next, got)

/-- `Vector(size)`, and the bytes of its buffer. -/
def Vec.ctorSizeWith (s : Storage E) (size : Nat) : Storage E × Option (Vec × Nat) :=
  let mCap := max 1 size
  match allocateWith T N s mCap with
  | none => (s, none)
  | some (s, pArr, got) =>
    (constructN T s pArr size, some ({ mSize := size, mCap := mCap, pArr := pArr }, got))

/-- `_grow_capacity` -/
def Vec.growWith (v : Vec) (s : Storage E) (newCap : Nat) : Ending E :=
  match allocateWith T N s newCap with
  | none => ⟨s, v, true, [⟨s, none⟩]⟩
  | some (s₁, newArr, got) =>
    let s₂ := moveN T s₁ v.pArr newArr v.mSize
    ⟨(destroyN s₂ v.pArr v.mSize).free v.pArr, { v with pArr := newArr, mCap := newCap }, false,
      [⟨s, some got⟩]⟩

/-- The two tests of `push_back` and `emplace_back`. -/
def Vec.reserveWith (v : Vec) (s : Storage E) : Ending E :=
  (if v.mCap = 1 then v.growWith T N s (v.mCap * 3 % 2 ^ 64) else ⟨s, v, false, []⟩).andThen
    fun s v =>
      if v.mCap ≤ v.mSize then v.growWith T N s (v.mCap * 3 % 2 ^ 64) else ⟨s, v, false, []⟩

/-- `push_back` and `emplace_back`, of the element `x`. -/
def Vec.appendWith (v : Vec) (s : Storage E) (x : E) : Ending E :=
  (v.reserveWith T N s).andThen fun s v =>
    ⟨s.construct v.pArr v.mSize x, { v with mSize := v.mSize + 1 }, false, []⟩

end QuickStructs.Vector
