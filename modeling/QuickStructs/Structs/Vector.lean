import Mathlib.Algebra.Ring.Nat
import QuickStructs.Lib.Storage
import QuickStructs.Lib.Transition

/-!
# The vector

`Vector<Element>`, whose buffer comes from `operator new` and whose elements are
constructed in it and destroyed there one by one. The operations of the element type do
not throw, and neither does the allocation. Sizes are counted in bytes as the code counts
them, modulo 2⁶⁴.

The class declares a destructor and no copy operations. Its copies are the implicit ones,
which copy the three members; a move is a copy too.
-/

namespace QuickStructs.Vector

open Lib

/-- What the element type defines. -/
structure ElementType (E : Type) where
  /-- `sizeof(Element)` -/
  size : Nat
  pos : 0 < size
  fits : size < 2 ^ 64
  /-- `Element()` -/
  default : E
  /-- What is left of an element when `std::move_if_noexcept` has given it away: the element
  itself, where the type is copied. -/
  moved : E → E

/-- `Vector`. -/
structure Vec where
  mSize : Nat := 0
  mCap : Nat := 1
  pArr : Nat := 0
  deriving DecidableEq, Repr

/-- `Element &`. -/
structure Ref where
  arr : Nat
  pos : Nat
  deriving DecidableEq, Repr

variable {E : Type} (T : ElementType E)

/-! ## Storage -/

/-- `::operator new(bytes)` -/
def operatorNew (s : Storage E) (bytes : Nat) : Storage E × Nat :=
  (s.alloc (bytes / T.size), s.next)

/-- `_allocate` -/
def allocate (s : Storage E) (allocSize : Nat) : Storage E × Nat :=
  if allocSize = 0 then (s, 0) else operatorNew T s (T.size * allocSize % 2 ^ 64)

/-- `std::destroy_n` -/
def destroyN (s : Storage E) (p : Nat) : Nat → Storage E
  | 0 => s
  | i + 1 => (destroyN s p i).destroy p i

/-- The loop of `Vector(size)`, after `i` rounds. -/
def constructN (s : Storage E) (p : Nat) : Nat → Storage E
  | 0 => s
  | i + 1 => (constructN s p i).construct p i T.default

/-- The loop of `_grow_capacity`, after `i` rounds. -/
def moveN (s : Storage E) (pArr newArr : Nat) : Nat → Storage E
  | 0 => s
  | i + 1 =>
    let s := moveN s pArr newArr i
    match s.slot pArr i with
    | some o => (s.construct newArr i o.val).assign pArr i (T.moved o.val)
    | none => s.fault

def Ref.read (r : Ref) (s : Storage E) : Option E := (s.slot r.arr r.pos).map Object.val

def Ref.write (r : Ref) (s : Storage E) (x : E) : Storage E := s.assign r.arr r.pos x

/-! ## The operations -/

/-- `_grow_capacity` -/
def Vec.growCapacity (v : Vec) (s : Storage E) (newCap : Nat) : Storage E × Vec :=
  let (s, newArr) := allocate T s newCap
  let s := moveN T s v.pArr newArr v.mSize
  ((destroyN s v.pArr v.mSize).free v.pArr, { v with pArr := newArr, mCap := newCap })

/-- `Vector()` -/
def Vec.ctor (s : Storage E) : Storage E × Vec :=
  let (s, pArr) := operatorNew T s T.size
  (s, { pArr := pArr })

/-- `Vector(size)` -/
def Vec.ctorSize (s : Storage E) (size : Nat) : Storage E × Vec :=
  let mCap := max 1 size
  let (s, pArr) := allocate T s mCap
  (constructN T s pArr size, { mSize := size, mCap := mCap, pArr := pArr })

/-- `~Vector()` -/
def Vec.dtor (v : Vec) (s : Storage E) : Storage E := (destroyN s v.pArr v.mSize).free v.pArr

/-- `operator[]` -/
def Vec.index (v : Vec) (pos : Nat) : Ref := ⟨v.pArr, pos⟩

/-- `at`, and the text of its `std::out_of_range`. -/
def Vec.at (v : Vec) (index : Nat) : Except String Ref :=
  if v.mSize ≤ index then .error "u tripping" else .ok ⟨v.pArr, index⟩

/-- `push_back` and `emplace_back` grow in two places. -/
def Vec.reserve (v : Vec) (s : Storage E) : Storage E × Vec :=
  let (s, v) := if v.mCap = 1 then v.growCapacity T s (v.mCap * 3 % 2 ^ 64) else (s, v)
  if v.mCap ≤ v.mSize then v.growCapacity T s (v.mCap * 3 % 2 ^ 64) else (s, v)

/-- Append the element `x`, which the arguments of the call construct. -/
def Vec.append (v : Vec) (s : Storage E) (x : E) : Storage E × Vec :=
  let (s, v) := v.reserve T s
  (s.construct v.pArr v.mSize x, { v with mSize := v.mSize + 1 })

/-- `push_back` -/
def Vec.pushBack (v : Vec) (s : Storage E) (element : E) : Storage E × Vec := v.append T s element

/-- `emplace_back`, of arguments that construct `element`. -/
def Vec.emplaceBack (v : Vec) (s : Storage E) (element : E) : Storage E × Vec :=
  v.append T s element

/-- `push_back` of an lvalue. `std::forward<Element>` makes an rvalue of it, and `left` is what
the construction from an rvalue leaves of an element. -/
def Vec.pushBackRef (left : E → E) (v : Vec) (s : Storage E) (element : Ref) : Storage E × Vec :=
  let (s, v) := v.reserve T s
  match element.read s with
  | some x =>
    (element.write (s.construct v.pArr v.mSize x) (left x), { v with mSize := v.mSize + 1 })
  | none => (s.fault, v)

/-- `emplace_back` of an lvalue, which is copied. -/
def Vec.emplaceBackRef (v : Vec) (s : Storage E) (element : Ref) : Storage E × Vec :=
  let (s, v) := v.reserve T s
  match element.read s with
  | some x => (s.construct v.pArr v.mSize x, { v with mSize := v.mSize + 1 })
  | none => (s.fault, v)

/-- `pop_back` -/
def Vec.popBack (v : Vec) (s : Storage E) : Storage E × Vec :=
  if v.mSize = 0 then (s, v)
  else (s.destroy v.pArr (v.mSize - 1), { v with mSize := v.mSize - 1 })

/-- `shrink_to_fit` -/
def Vec.shrinkToFit (v : Vec) (s : Storage E) : Storage E × Vec :=
  if v.mSize < v.mCap then v.growCapacity T s v.mSize else (s, v)

/-- `resize` -/
def Vec.resize (v : Vec) (newCap : Nat) : Vec := { v with mCap := newCap }

/-- The implicit copy constructor and copy assignment. -/
def Vec.copy (v : Vec) : Vec := { mSize := v.mSize, mCap := v.mCap, pArr := v.pArr }

/-! ## Operations on one vector -/

inductive Op (E : Type) where
  | pushBack (element : E)
  | emplaceBack (element : E)
  | popBack
  /-- An assignment through `operator[]`. -/
  | write (pos : Nat) (x : E)
  deriving DecidableEq, Repr

def Op.run (op : Op E) (s : Storage E) (v : Vec) : Storage E × Vec :=
  match op with
  | .pushBack element => v.pushBack T s element
  | .emplaceBack element => v.emplaceBack T s element
  | .popBack => v.popBack s
  | .write pos x => ((v.index pos).write s x, v)

/-- The operation on lists that it stands for. -/
def Op.onList (op : Op E) (l : List E) : List E :=
  match op with
  | .pushBack element => l ++ [element]
  | .emplaceBack element => l ++ [element]
  | .popBack => l.dropLast
  | .write pos x => l.set pos x

/-- An index for `operator[]` is below `size()`. -/
def Op.InRange (op : Op E) (v : Vec) : Prop :=
  match op with
  | .write pos _ => pos < v.mSize
  | _ => True

instance : (op : Op E) → (v : Vec) → Decidable (op.InRange v)
  | .pushBack _, _ => inferInstanceAs (Decidable True)
  | .emplaceBack _, _ => inferInstanceAs (Decidable True)
  | .popBack, _ => inferInstanceAs (Decidable True)
  | .write pos _, v => inferInstanceAs (Decidable (pos < v.mSize))

/-- If the vector grows now, it asks for less than 2⁶⁴ bytes. -/
def Vec.GrowthFits (v : Vec) : Prop :=
  v.mCap = 1 ∨ v.mCap ≤ v.mSize → T.size * (v.mCap * 3) < 2 ^ 64

instance (v : Vec) : Decidable (v.GrowthFits T) :=
  inferInstanceAs (Decidable (_ → _))

/-- The byte sizes that the operation computes fit in 64 bits. -/
def Op.Fits (op : Op E) (v : Vec) : Prop :=
  match op with
  | .pushBack _ => v.GrowthFits T
  | .emplaceBack _ => v.GrowthFits T
  | _ => True

instance : (op : Op E) → (v : Vec) → Decidable (op.Fits T v)
  | .pushBack _, v => inferInstanceAs (Decidable (v.GrowthFits T))
  | .emplaceBack _, v => inferInstanceAs (Decidable (v.GrowthFits T))
  | .popBack, _ => inferInstanceAs (Decidable True)
  | .write _ _, _ => inferInstanceAs (Decidable True)

/-- The byte size of a vector constructed with `size` elements fits in 64 bits. -/
abbrev SizeFits (size : Nat) : Prop := T.size * max 1 size < 2 ^ 64

/-- A vector in its storage. The list is not in the code: it goes through the same operations. -/
structure Run (E : Type) where
  storage : Storage E
  vec : Vec
  list : List E

/-- `Vector()`, or `Vector(size)`. -/
def start : Option Nat → Run E
  | none =>
    let (s, v) := Vec.ctor T {}
    { storage := s, vec := v, list := [] }
  | some size =>
    let (s, v) := Vec.ctorSize T {} size
    { storage := s, vec := v, list := List.replicate size T.default }

/-- An operation whose byte sizes fit. -/
def step (r : Run E) (op : Op E) : Option (Run E) :=
  if op.InRange r.vec ∧ op.Fits T r.vec then
    let (s, v) := op.run T r.storage r.vec
    some { storage := s, vec := v, list := op.onList r.list }
  else none

/-- The states of a vector that was constructed and worked on. -/
abbrev Reachable (size : Option Nat) (r : Run E) : Prop :=
  Transition.Reach (Transition.Of (step T)) (start T size) r

/-! ## Operations that change the capacity -/

inductive Act (E : Type) where
  | work (op : Op E)
  | shrinkToFit
  | resize (newCap : Nat)
  deriving DecidableEq, Repr

def Act.run (a : Act E) (s : Storage E) (v : Vec) : Storage E × Vec :=
  match a with
  | .work op => op.run T s v
  | .shrinkToFit => v.shrinkToFit T s
  | .resize newCap => (s, v.resize newCap)

def Act.onList (a : Act E) (l : List E) : List E :=
  match a with
  | .work op => op.onList l
  | _ => l

def Act.InRange (a : Act E) (v : Vec) : Prop :=
  match a with
  | .work op => op.InRange v
  | _ => True

instance : (a : Act E) → (v : Vec) → Decidable (a.InRange v)
  | .work op, v => inferInstanceAs (Decidable (op.InRange v))
  | .shrinkToFit, _ => inferInstanceAs (Decidable True)
  | .resize _, _ => inferInstanceAs (Decidable True)

def Op.appends : Op E → Bool
  | .pushBack _ => true
  | .emplaceBack _ => true
  | _ => false

/-- The byte sizes that an append computes fit in 64 bits. It may grow twice, to three slots and
then to nine. -/
def Vec.AppendFits (v : Vec) : Prop :=
  v.GrowthFits T ∧ (v.mCap = 1 → ({ v with mCap := 3 } : Vec).GrowthFits T)

instance (v : Vec) : Decidable (v.AppendFits T) := inferInstanceAs (Decidable (_ ∧ _))

def Act.Fits (a : Act E) (v : Vec) : Prop :=
  match a with
  | .work op => op.appends = true → v.AppendFits T
  | .shrinkToFit => v.mSize < v.mCap → T.size * v.mSize < 2 ^ 64
  | .resize _ => True

instance : (a : Act E) → (v : Vec) → Decidable (a.Fits T v)
  | .work op, v => inferInstanceAs (Decidable (op.appends = true → v.AppendFits T))
  | .shrinkToFit, v => inferInstanceAs (Decidable (v.mSize < v.mCap → T.size * v.mSize < 2 ^ 64))
  | .resize _, _ => inferInstanceAs (Decidable True)

def Act.appends : Act E → Bool
  | .work op => op.appends
  | _ => false

def Act.resizes : Act E → Bool
  | .resize _ => true
  | _ => false

/-- A vector in its storage, and whether `resize` was ever called. -/
structure Life (E : Type) extends Run E where
  resized : Bool := false

/-- An act whose byte sizes fit. -/
def does (r : Life E) (a : Act E) : Option (Life E) :=
  if a.InRange r.vec ∧ a.Fits T r.vec then
    let (s, v) := a.run T r.storage r.vec
    some { storage := s, vec := v, list := a.onList r.list, resized := r.resized || a.resizes }
  else none

/-- The behaviour of the act is defined: it constructs in free slots of a buffer, and uses only
what is live. -/
def Defined (r : Life E) (a : Act E) : Prop := (a.run T r.storage r.vec).1.faulted = false

instance (r : Life E) (a : Act E) : Decidable (Defined T r a) :=
  inferInstanceAs (Decidable (_ = _))

/-- The states of a vector that was constructed and worked on in any defined way. -/
abbrev Lived (size : Option Nat) (r : Life E) : Prop :=
  Transition.Reach (Transition.When (Defined T) (Transition.Of (does T)))
    { toRun := start T size } r

/-- The number of slots of the buffer. -/
def Vec.slots (v : Vec) (s : Storage E) : Nat := ((s.buffers v.pArr).map Buffer.size).getD 0

/-! ## Any number of vectors -/

/-- The vectors of a program. The lists are not in the code: they are the values that the
vectors would have if a copy were a value of its own. -/
structure World (V E : Type) where
  /-- The vectors within their lifetimes. -/
  vectors : V → Option Vec := fun _ => none
  storage : Storage E := {}
  lists : V → Option (List E) := fun _ => none

variable {V : Type} [DecidableEq V]

def World.set (w : World V E) (s : Storage E) (v : V) (x : Option Vec)
    (l : Option (List E)) : World V E where
  vectors := Function.update w.vectors v x
  storage := s
  lists := Function.update w.lists v l

/-- The list of `v` with the element at `pos` of `other` behind it. -/
def World.appended (w : World V E) (v other : V) (pos : Nat) : Option (List E) :=
  (w.lists v).bind fun l => (w.lists other).bind fun k => k[pos]?.map fun x => l ++ [x]

inductive Call (V E : Type) where
  | ctor (v : V)
  | ctorSize (v : V) (size : Nat)
  | copyCtor (v other : V)
  | copyAssign (v other : V)
  | run (v : V) (a : Act E)
  /-- `v.push_back(other[pos])`, where `other` may be `v`. -/
  | pushBackRef (v other : V) (pos : Nat)
  /-- `v.emplace_back(other[pos])` -/
  | emplaceBackRef (v other : V) (pos : Nat)
  | dtor (v : V)
  deriving DecidableEq, Repr

/-- A call, where `left` is what the construction from an rvalue leaves of an element. -/
def World.call (left : E → E) (w : World V E) : Call V E → Option (World V E)
  | .ctor v =>
    match w.vectors v with
    | none =>
      let (s, x) := Vec.ctor T w.storage
      some (w.set s v (some x) (some []))
    | some _ => none
  | .ctorSize v size =>
    match w.vectors v with
    | none =>
      let (s, x) := Vec.ctorSize T w.storage size
      some (w.set s v (some x) (some (List.replicate size T.default)))
    | some _ => none
  | .copyCtor v other =>
    match w.vectors v, w.vectors other with
    | none, some y => some (w.set w.storage v (some y.copy) (w.lists other))
    | _, _ => none
  | .copyAssign v other =>
    match w.vectors v, w.vectors other with
    | some _, some y => some (w.set w.storage v (some y.copy) (w.lists other))
    | _, _ => none
  | .run v a =>
    match w.vectors v with
    | some x =>
      if a.InRange x then
        let (s, x) := a.run T w.storage x
        some (w.set s v (some x) ((w.lists v).map a.onList))
      else none
    | none => none
  | .pushBackRef v other pos =>
    match w.vectors v, w.vectors other with
    | some x, some y =>
      if pos < y.mSize then
        let (s, x) := x.pushBackRef T left w.storage (y.index pos)
        some (w.set s v (some x) (w.appended v other pos))
      else none
    | _, _ => none
  | .emplaceBackRef v other pos =>
    match w.vectors v, w.vectors other with
    | some x, some y =>
      if pos < y.mSize then
        let (s, x) := x.emplaceBackRef T w.storage (y.index pos)
        some (w.set s v (some x) (w.appended v other pos))
      else none
    | _, _ => none
  | .dtor v =>
    match w.vectors v with
    | some x => some (w.set (x.dtor w.storage) v none none)
    | none => none

end QuickStructs.Vector
