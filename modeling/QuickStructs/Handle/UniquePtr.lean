import QuickStructs.Lib.Custody
import QuickStructs.Lib.Transition

/-!
# The unique pointer

Handles of several kinds: a kind is an instantiation `UniquePtr<T, Deleter>`, and the
converting operations go between handles of different kinds. A deleter is a value. What
it is when it is default constructed or moved from, and what a deleter of one kind
becomes as a deleter of another, is up to the deleter types, so these three are
parameters. Raw pointers are numbered, and null is `none`.

The last fields of a world are not in the code: they record which pointers were adopted,
deleted and released, and for an adopted one the deleter its handle had then and the
conversions it went through since.
-/

namespace QuickStructs.UniquePtr

open Lib

/-- What the deleter types define. -/
structure Deleters (K D : Type) where
  /-- `Deleter()` -/
  default : K → D
  /-- A deleter of the second kind, made from one of the first. -/
  convert : K → K → D → D
  /-- What a move leaves behind. -/
  moved : D → D

/-- `UniquePtr`. -/
structure Handle (D : Type) where
  m_ptr : Option Nat
  m_deleter : D
  deriving DecidableEq, Repr

/-- The deleter of the handle that adopted a pointer, and the converting moves of the pointer. -/
structure Adoption (K D : Type) where
  deleter : D
  route : List (K × K) := []
  deriving DecidableEq, Repr

structure World (H K D : Type) where
  /-- The handles within their lifetimes. -/
  handles : H → Option (Handle D) := fun _ => none
  adoption : Nat → Option (Adoption K D) := fun _ => none
  /-- The calls of deleters, each with its pointer. -/
  deletions : List (Nat × D) := []
  /-- What `release()` has returned to clients, null left out. -/
  released : List Nat := []

variable {H K D : Type} [DecidableEq H] [DecidableEq K]

def World.set (w : World H K D) (h : H) (x : Option (Handle D)) : World H K D :=
  { w with handles := Function.update w.handles h x }

/-- `if (old) m_deleter(old);` -/
def World.delete (w : World H K D) (old : Option Nat) (m_deleter : D) : World H K D :=
  match old with
  | some p => { w with deletions := w.deletions ++ [(p, m_deleter)] }
  | none => w

/-- Record the adoption of a pointer that is not null. -/
def World.adopt (w : World H K D) (ptr : Option Nat) (d : D) : World H K D :=
  match ptr with
  | some p => { w with adoption := Function.update w.adoption p (some { deleter := d }) }
  | none => w

/-- Record a converting move of a pointer that is not null. -/
def World.convert (w : World H K D) (ptr : Option Nat) (u v : K) : World H K D :=
  match ptr with
  | some p =>
    { w with
      adoption := Function.update w.adoption p
        ((w.adoption p).map fun a => { a with route := a.route ++ [(u, v)] }) }
  | none => w

/-- `reset(ptr)` of the handle `h`, which is `x`. -/
def World.reset (w : World H K D) (h : H) (x : Handle D) (ptr : Option Nat) : World H K D :=
  -- old = std::exchange(m_ptr, ptr)
  (w.set h (some { x with m_ptr := ptr })).delete x.m_ptr x.m_deleter

/-- The constructors from `other`, which is `y`; `conv` is how its deleter is taken over. -/
def World.moveCtor (δ : Deleters K D) (w : World H K D) (h other : H) (y : Handle D)
    (conv : D → D) : World H K D :=
  (w.set h (some ⟨y.m_ptr, conv y.m_deleter⟩)).set other (some ⟨none, δ.moved y.m_deleter⟩)

/-- The assignments from `other`, which is `y` and is not the handle itself. -/
def World.moveAssign (δ : Deleters K D) (w : World H K D) (h other : H) (x y : Handle D)
    (conv : D → D) : World H K D :=
  -- reset(other.release())
  let w₁ := (w.set other (some { y with m_ptr := none })).reset h x y.m_ptr
  -- m_deleter = std::forward<..>(other.m_deleter)
  (w₁.set h (some ⟨y.m_ptr, conv y.m_deleter⟩)).set other (some ⟨none, δ.moved y.m_deleter⟩)

inductive Op (H D : Type) where
  /-- `UniquePtr()` and `UniquePtr(nullptr)` -/
  | ctor (h : H)
  /-- `UniquePtr(ptr)` -/
  | ctorPtr (h : H) (ptr : Option Nat)
  /-- `UniquePtr(ptr, del)`, with the deleter copied or moved -/
  | ctorDeleter (h : H) (ptr : Option Nat) (del : D)
  | moveCtor (h other : H)
  | convertCtor (h other : H)
  | moveAssign (h other : H)
  | convertAssign (h other : H)
  /-- `operator=(nullptr)` -/
  | assignNull (h : H)
  | reset (h : H) (ptr : Option Nat)
  | release (h : H)
  | swap (h other : H)
  /-- `~UniquePtr()` -/
  | dtor (h : H)
  deriving DecidableEq, Repr

/-- The pointer is null, or was never adopted. -/
def World.fresh (w : World H K D) (ptr : Option Nat) : Prop := ∀ p ∈ ptr, w.adoption p = none

instance (w : World H K D) (ptr : Option Nat) : Decidable (w.fresh ptr) :=
  inferInstanceAs (Decidable (∀ p ∈ ptr, w.adoption p = none))

def step (δ : Deleters K D) (kind : H → K) (w : World H K D) : Op H D → Option (World H K D)
  | .ctor h =>
    match w.handles h with
    | none => some (w.set h (some ⟨none, δ.default (kind h)⟩))
    | some _ => none
  | .ctorPtr h ptr =>
    match w.handles h with
    | none =>
      if w.fresh ptr then
        some ((w.set h (some ⟨ptr, δ.default (kind h)⟩)).adopt ptr (δ.default (kind h)))
      else none
    | some _ => none
  | .ctorDeleter h ptr del =>
    match w.handles h with
    | none => if w.fresh ptr then some ((w.set h (some ⟨ptr, del⟩)).adopt ptr del) else none
    | some _ => none
  | .moveCtor h other =>
    match w.handles h, w.handles other with
    | none, some y => if kind h = kind other then some (w.moveCtor δ h other y id) else none
    | _, _ => none
  | .convertCtor h other =>
    match w.handles h, w.handles other with
    | none, some y =>
      if kind h ≠ kind other then
        some ((w.moveCtor δ h other y (δ.convert (kind other) (kind h))).convert y.m_ptr
          (kind other) (kind h))
      else none
    | _, _ => none
  | .moveAssign h other =>
    match w.handles h, w.handles other with
    | some x, some y =>
      if kind h = kind other then some (if h ≠ other then w.moveAssign δ h other x y id else w)
      else none
    | _, _ => none
  | .convertAssign h other =>
    match w.handles h, w.handles other with
    | some x, some y =>
      if kind h ≠ kind other then
        some ((w.moveAssign δ h other x y (δ.convert (kind other) (kind h))).convert y.m_ptr
          (kind other) (kind h))
      else none
    | _, _ => none
  | .assignNull h => (w.handles h).map fun x => w.reset h x none
  | .reset h ptr =>
    match w.handles h with
    | some x => if w.fresh ptr then some ((w.reset h x ptr).adopt ptr x.m_deleter) else none
    | none => none
  | .release h =>
    (w.handles h).map fun x =>
      { w.set h (some { x with m_ptr := none }) with released := w.released ++ x.m_ptr.toList }
  | .swap h other =>
    match w.handles h, w.handles other with
    | some x, some y =>
      if kind h = kind other then some ((w.set h (some y)).set other (some x)) else none
    | _, _ => none
  | .dtor h => (w.handles h).map fun x => (w.reset h x none).set h none

/-- The worlds that sequences of operations reach. -/
abbrev Reachable (δ : Deleters K D) (kind : H → K) (w : World H K D) : Prop :=
  Transition.Reach (Transition.Of (step δ kind)) {} w

/-- The deleter of an adopted pointer, as the converting moves have carried it along. -/
def Adoption.carried (δ : Deleters K D) (a : Adoption K D) : D :=
  a.route.foldl (fun d e => δ.convert e.1 e.2 d) a.deleter

end QuickStructs.UniquePtr
