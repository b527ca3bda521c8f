import Mathlib.Data.Fintype.Card
import Mathlib.Data.Fintype.Sum
import Mathlib.Logic.Relation
import Mathlib.Tactic.DeriveFintype

/-!
# Shared pointers in the objects they manage

A node is an object with a field `next`, which is a `shared_ptr` to a node. The handles are
then variables of the program and fields of the nodes, and to release the last reference to a
node runs the destructor of its field, which releases a reference in turn, and so on.

The deleter is `default_deleter`. Addresses are taken from finite types, since what is looked
at allocates nothing. Recursion is bounded by a number of calls, and to run out of it is a
fault, like any use of memory that is not there: a control block that was freed, an object that
was deleted, a handle that was destroyed.
-/

namespace QuickStructs.LinkedPtr

/-- `control_block`. -/
structure ControlBlock (A : Type) where
  m_count : Nat
  p_obj : Option A
  deriving DecidableEq, Repr

/-- `shared_ptr`. -/
structure Handle (A B : Type) where
  p_obj : Option A := none
  p_cb : Option B := none
  deriving DecidableEq, Repr

/-- Where a handle is stored. -/
inductive Place (V A : Type) where
  | var (v : V)
  /-- The field `next` of the node at `a`. -/
  | next (a : A)
  deriving DecidableEq, Fintype, Repr

/-- Variables `V`, nodes at `A` and control blocks at `B`. -/
structure Memory (V A B : Type) where
  /-- The variables within their lifetimes. -/
  vars : V → Option (Handle A B)
  /-- The field `next` of the nodes that are not deleted. -/
  nodes : A → Option (Handle A B)
  /-- The control blocks that are not freed. -/
  blocks : B → Option (ControlBlock A)
  faulted : Bool := false

variable {V A B : Type}

def Memory.fault (m : Memory V A B) : Memory V A B := { m with faulted := true }

/-- The handle at a place, within its lifetime. -/
def Memory.get (m : Memory V A B) : Place V A → Option (Handle A B)
  | .var v => m.vars v
  | .next a => m.nodes a

/-- The value of `p_cb`. -/
def Memory.p_cb (m : Memory V A B) (l : Place V A) : Option B := (m.get l).bind Handle.p_cb

/-- `use_count()` -/
def Memory.useCount (m : Memory V A B) (x : Handle A B) : Nat :=
  match x.p_cb with
  | some b => ((m.blocks b).map ControlBlock.m_count).getD 0
  | none => 0

variable [DecidableEq V] [DecidableEq A] [DecidableEq B]

/-- Write to the handle at a place. -/
def Memory.set (m : Memory V A B) (l : Place V A) (x : Handle A B) : Memory V A B :=
  match m.get l with
  | none => m.fault
  | some _ =>
    match l with
    | .var v => { m with vars := Function.update m.vars v (some x) }
    | .next a => { m with nodes := Function.update m.nodes a (some x) }

def Memory.setBlock (m : Memory V A B) (b : B) (c : Option (ControlBlock A)) : Memory V A B :=
  { m with blocks := Function.update m.blocks b c }

def Memory.setNode (m : Memory V A B) (a : A) (x : Option (Handle A B)) : Memory V A B :=
  { m with nodes := Function.update m.nodes a x }

/-- `std::destroy_at(this); ::operator delete(this)` of `release`. -/
def Memory.freeBlock (m : Memory V A B) (b : B) : Memory V A B :=
  match m.blocks b with
  | some _ => m.setBlock b none
  | none => m.fault

/-- `add_ref` -/
def Memory.addRef (m : Memory V A B) (b : B) : Memory V A B :=
  match m.blocks b with
  | some c => m.setBlock b (some { c with m_count := c.m_count + 1 })
  | none => m.fault

/-- `default_deleter` on the node at `a`: its field is destroyed, where `release` is the
`release()` of control blocks, and its memory given back. -/
def Memory.deleteNode (release : Memory V A B → B → Memory V A B) (m : Memory V A B) (a : A) :
    Memory V A B :=
  match m.nodes a with
  | none => m.fault
  | some x =>
    match x.p_cb with
    | some b => (release m b).setNode a none
    | none => m.setNode a none

/-- `release`, with `k` calls. -/
def Memory.releaseIn : Nat → Memory V A B → B → Memory V A B
  | 0, m, _ => m.fault
  | k + 1, m, b =>
    match m.blocks b with
    | none => m.fault
    | some c =>
      let m := m.setBlock b (some { c with m_count := c.m_count - 1 })
      if c.m_count = 1 then
        match c.p_obj with
        | some a => (m.deleteNode (fun m b => m.releaseIn k b) a).freeBlock b
        | none => m.freeBlock b
      else m

variable [Fintype B]

/-- `if (p_cb) p_cb->release();`. One call for each control block, and one more, are enough. -/
def Memory.release (m : Memory V A B) (x : Handle A B) : Memory V A B :=
  match x.p_cb with
  | some b => m.releaseIn (Fintype.card B + 1) b
  | none => m

/-- `reset` -/
def Memory.reset (m : Memory V A B) (h : Place V A) : Memory V A B :=
  match m.get h with
  | some x => (m.release x).set h {}
  | none => m.fault

/-- `operator=(const shared_ptr &other)`, on the handle at `h`. -/
def Memory.copyAssign (m : Memory V A B) (h other : Place V A) : Memory V A B :=
  if h ≠ other then
    match m.get h with
    | none => m.fault
    | some x =>
      let m := m.release x
      match m.get other with
      | none => m.fault
      | some y =>
        let m := m.set h y
        match y.p_cb with
        | some b => m.addRef b
        | none => m
  else m

/-- `operator=(shared_ptr &&other)`, on the handle at `h`. -/
def Memory.moveAssign (m : Memory V A B) (h other : Place V A) : Memory V A B :=
  if h ≠ other then
    match m.get h with
    | none => m.fault
    | some x =>
      let m := m.release x
      match m.get other with
      | none => m.fault
      | some y => (m.set h y).set other {}
  else m

/-! ## Programs -/

def Memory.setVar (m : Memory V A B) (v : V) (x : Option (Handle A B)) : Memory V A B :=
  { m with vars := Function.update m.vars v x }

/-- `shared_ptr(pointer)` with a node that was just made, whose field is null. -/
def Memory.create (m : Memory V A B) (v : V) (a : A) (b : B) : Memory V A B :=
  ((m.setNode a (some {})).setBlock b (some { m_count := 1, p_obj := some a })).setVar v
    (some { p_obj := some a, p_cb := some b })

/-- `shared_ptr(const shared_ptr &other)` -/
def Memory.copyCtor (m : Memory V A B) (v : V) (other : Place V A) : Memory V A B :=
  match m.get other with
  | none => m.fault
  | some y =>
    let m := m.setVar v (some y)
    match y.p_cb with
    | some b => m.addRef b
    | none => m

/-- `shared_ptr(shared_ptr &&other)` -/
def Memory.moveCtor (m : Memory V A B) (v : V) (other : Place V A) : Memory V A B :=
  match m.get other with
  | none => m.fault
  | some y => (m.setVar v (some y)).set other {}

/-- `~shared_ptr`, of a variable. -/
def Memory.dtor (m : Memory V A B) (v : V) : Memory V A B := (m.reset (.var v)).setVar v none

/-- What a program does with its handles. -/
inductive Op (V A B : Type) where
  /-- `shared_ptr v;` -/
  | ctor (v : V)
  /-- `shared_ptr v{new Node};`, which gets memory at `a` and `b`. -/
  | create (v : V) (a : A) (b : B)
  | copyCtor (v : V) (other : Place V A)
  | moveCtor (v : V) (other : Place V A)
  | copyAssign (h other : Place V A)
  | moveAssign (h other : Place V A)
  | reset (h : Place V A)
  | dtor (v : V)
  deriving Repr

/-- An operation on handles within their lifetimes; new memory was not in use. -/
def step (m : Memory V A B) : Op V A B → Option (Memory V A B)
  | .ctor v => if m.vars v = none then some (m.setVar v (some {})) else none
  | .create v a b =>
    if m.vars v = none ∧ m.nodes a = none ∧ m.blocks b = none then some (m.create v a b) else none
  | .copyCtor v other =>
    if m.vars v = none ∧ m.get other ≠ none then some (m.copyCtor v other) else none
  | .moveCtor v other =>
    if m.vars v = none ∧ m.get other ≠ none then some (m.moveCtor v other) else none
  | .copyAssign h other =>
    if m.get h ≠ none ∧ m.get other ≠ none then some (m.copyAssign h other) else none
  | .moveAssign h other =>
    if m.get h ≠ none ∧ m.get other ≠ none then some (m.moveAssign h other) else none
  | .reset h => if m.get h ≠ none then some (m.reset h) else none
  | .dtor v => if m.vars v ≠ none then some (m.dtor v) else none

/-- Nothing is there yet. -/
def Memory.empty : Memory V A B where
  vars _ := none
  nodes _ := none
  blocks _ := none

/-! ## Well-formed memory -/

variable [Fintype V] [Fintype A]

/-- How many handles refer to the control block. -/
def Memory.refs (m : Memory V A B) (b : B) : Nat :=
  (Finset.univ.filter fun l : Place V A => m.p_cb l = some b).card

/-- The field `next` of the node at `a` refers to the node at `a'`. -/
def Memory.Links (m : Memory V A B) (a a' : A) : Prop := ∃ x, m.nodes a = some x ∧ x.p_obj = some a'

/-- A heap of nodes, shared in any way, without a cycle. -/
structure Memory.WellFormed (m : Memory V A B) : Prop where
  unfaulted : m.faulted = false
  /-- A handle has a control block and the pointer that the block manages, or is null. -/
  handles : ∀ l x, m.get l = some x →
    (x.p_cb = none ∧ x.p_obj = none)
    ∨ ∃ b c, x.p_cb = some b ∧ m.blocks b = some c ∧ x.p_obj = c.p_obj
  /-- The node of a control block is there. -/
  nodes : ∀ b c a, m.blocks b = some c → c.p_obj = some a → ∃ x, m.nodes a = some x
  /-- A raw pointer was adopted once. -/
  adopted : ∀ b c b' c' a, m.blocks b = some c → m.blocks b' = some c' →
    c.p_obj = some a → c'.p_obj = some a → b = b'
  /-- A count is the number of handles, and there are some. -/
  counts : ∀ b c, m.blocks b = some c → c.m_count = m.refs b ∧ 0 < c.m_count
  acyclic : ∀ a, ¬Relation.TransGen m.Links a a

end QuickStructs.LinkedPtr
