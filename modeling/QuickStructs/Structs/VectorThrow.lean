import QuickStructs.Structs.Vector

/-!
# The vector when its elements throw

The calls of `Vector` that allocate and construct, with exceptions. What may throw is the
allocation, each copy of an element, and the construction of a new one. A call is given a number:
so many of these succeed, and the next one throws. A call that needs no more than that returns.
-/

namespace QuickStructs.Vector

open Lib

variable {E : Type} (T : ElementType E)

/-- How a call ends. -/
structure Outcome (E : Type) where
  storage : Storage E
  vec : Vec
  /-- How many more would succeed, or `none` if the call ends with an exception. -/
  fuse : Option Nat

/-- Go on, unless there was an exception. -/
def Outcome.andThen (o : Outcome E) (f : Storage E → Vec → Nat → Outcome E) : Outcome E :=
  match o.fuse with
  | some k => f o.storage o.vec k
  | none => o

/-- `_allocate`: null, or what `operator new` returns. -/
def tryAllocate (s : Storage E) (allocSize : Nat) : Nat → Option (Storage E × Nat × Nat)
  | 0 => if allocSize = 0 then some (s, 0, 0) else none
  | k + 1 =>
    if allocSize = 0 then some (s, 0, k + 1)
    else
      let (s, p) := operatorNew T s (T.size * allocSize % 2 ^ 64)
      some (s, p, k)

/-- The loop of `Vector(size)`, after `i` rounds, or with an exception in one of them. -/
def tryConstructN (s : Storage E) (pArr k : Nat) : Nat → Storage E × Option Nat
  | 0 => (s, some k)
  | i + 1 =>
    match tryConstructN s pArr k i with
    | (s, some (k + 1)) => (s.construct pArr i T.default, some k)
    | (s, _) => (s, none)

/-- `Vector(size)`, which gives no vector if there was an exception. -/
def Vec.tryCtorSize (s : Storage E) (size k : Nat) : Storage E × Option (Vec × Nat) :=
  let mCap := max 1 size
  match tryAllocate T s mCap k with
  | none => (s, none)
  | some (s, pArr, k) =>
    match tryConstructN T s pArr k size with
    -- there is no handler
    | (s, none) => (s, none)
    | (s, some k) => (s, some ({ mSize := size, mCap := mCap, pArr := pArr }, k))

/-- The loop of `_grow_capacity`, after `i` rounds, or with an exception in one of them. -/
def tryMoveN (s : Storage E) (pArr newArr k : Nat) : Nat → Storage E × Except Nat Nat
  | 0 => (s, .ok k)
  | i + 1 =>
    match tryMoveN s pArr newArr k i with
    | (s, .error j) => (s, .error j)
    | (s, .ok 0) => (s, .error i)
    | (s, .ok (k + 1)) =>
      match s.slot pArr i with
      | some o => ((s.construct newArr i o.val).assign pArr i (T.moved o.val), .ok k)
      | none => (s.fault, .ok k)

/-- `_grow_capacity` -/
def Vec.tryGrow (v : Vec) (s : Storage E) (newCap k : Nat) : Outcome E :=
  match tryAllocate T s newCap k with
  | none => ⟨s, v, none⟩
  | some (s, newArr, k) =>
    match tryMoveN T s v.pArr newArr k v.mSize with
    -- the handler, which throws on
    | (s, .error i) => ⟨(destroyN s newArr i).free newArr, v, none⟩
    | (s, .ok k) =>
      ⟨(destroyN s v.pArr v.mSize).free v.pArr, { v with pArr := newArr, mCap := newCap }, some k⟩

/-- The two tests of `push_back` and `emplace_back`. -/
def Vec.tryReserve (v : Vec) (s : Storage E) (k : Nat) : Outcome E :=
  (if v.mCap = 1 then v.tryGrow T s (v.mCap * 3 % 2 ^ 64) k else ⟨s, v, some k⟩).andThen
    fun s v k => if v.mCap ≤ v.mSize then v.tryGrow T s (v.mCap * 3 % 2 ^ 64) k else ⟨s, v, some k⟩

/-- `push_back` and `emplace_back`. -/
def Vec.tryAppend (v : Vec) (s : Storage E) (x : E) (k : Nat) : Outcome E :=
  (v.tryReserve T s k).andThen fun s v k =>
    match k with
    | 0 => ⟨s, v, none⟩
    | k + 1 => ⟨s.construct v.pArr v.mSize x, { v with mSize := v.mSize + 1 }, some k⟩

/-- `shrink_to_fit` -/
def Vec.tryShrinkToFit (v : Vec) (s : Storage E) (k : Nat) : Outcome E :=
  if v.mSize < v.mCap then v.tryGrow T s v.mSize k else ⟨s, v, some k⟩

def Act.tryRun (c : Act E) (s : Storage E) (v : Vec) (k : Nat) : Outcome E :=
  match c with
  | .work (.pushBack element) => v.tryAppend T s element k
  | .work (.emplaceBack element) => v.tryAppend T s element k
  | .shrinkToFit => v.tryShrinkToFit T s k
  | c => ⟨(c.run T s v).1, (c.run T s v).2, some k⟩

/-- A call with the number it is given. The list takes part in the calls that return. -/
def calls (r : Life E) (e : Act E × Nat) : Option (Life E) :=
  if e.1.InRange r.vec ∧ e.1.Fits T r.vec then
    let o := e.1.tryRun T r.storage r.vec e.2
    some
      { storage := o.storage, vec := o.vec
        list := if o.fuse.isSome then e.1.onList r.list else r.list
        resized := r.resized || e.1.resizes }
  else none

/-- The behaviour of the call is defined, up to the exception if there is one. -/
def CallDefined (r : Life E) (e : Act E × Nat) : Prop :=
  (e.1.tryRun T r.storage r.vec e.2).storage.faulted = false

instance (r : Life E) (e : Act E × Nat) : Decidable (CallDefined T r e) :=
  inferInstanceAs (Decidable (_ = _))

/-- The states of a vector that was constructed and worked on in any defined way, also after
calls that ended with an exception. -/
abbrev Survived (size : Option Nat) (r : Life E) : Prop :=
  Transition.Reach (Transition.When (CallDefined T) (Transition.Of (calls T)))
    { toRun := start T size } r

end QuickStructs.Vector
