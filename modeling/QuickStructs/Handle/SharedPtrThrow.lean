import QuickStructs.Lib.Loop
import QuickStructs.Handle.SharedPtr

/-!
# The shared pointer when its control block cannot be made

`reset(pointer, d)` with exceptions. It gives up the old reference and writes `p_obj`; then
it allocates the control block, and the last thing to fail is the copy of the deleter in
there. An exception leaves the handle with what was written to it by then.
-/

namespace QuickStructs.SharedPtr

open Lib

/-- What throws in `reset(pointer, d)`. -/
inductive Failure where
  /-- `::operator new(sizeof(CB))`: `p_cb` is not written. -/
  | allocation
  /-- The copy of the deleter in `std::construct_at(p_cb, d)`: `p_cb` is written, and `m_count`
  is not, for the base comes first. -/
  | deleterCopy
  deriving DecidableEq, Repr

variable {n : Nat} {T D : Type} [DecidableEq T]

/-- A thread leaves `reset(pointer, d)` with an exception, after `p_obj = pointer`. -/
def World.throw (w : World n T D) (t : T) (e : Failure) : Option (World n T D) :=
  match w.threads t with
  | .write h (.adopt (some x) _) =>
    match e with
    | .allocation => some ((w.setHandle h (some ⟨some x, w.p_cb h⟩)).goto t .idle)
    | .deleterCopy =>
      some { (w.setHandle h (some ⟨some x, some w.blocks.next⟩)).goto t .idle with
        blocks := w.blocks.reserve }
  | _ => none

/-- The steps, exceptions included. -/
inductive Event (n : Nat) (T D : Type) where
  | act (a : Action n T D)
  | throw (t : T) (e : Failure)

def stepThrow [Inhabited D] (w : World n T D) : Event n T D → Option (World n T D)
  | .act a => step w a
  | .throw t e => w.throw t e

/-- The step is no exception, or one of the allocation while the handle has no control block. -/
def Event.harmless (w : World n T D) : Event n T D → Prop
  | .act _ => True
  | .throw t e => e = .allocation ∧ ∀ h wr, w.threads t = .write h wr → w.p_cb h = none

/-- The worlds that any interleaving of the threads reaches, with harmless exceptions after some
time without. -/
def Reached [Inhabited D] (w : World n T D) : Prop :=
  ∃ w₀, Reachable w₀
    ∧ Transition.Reach (Transition.When Event.harmless (Transition.Of stepThrow)) w₀ w

/-! ## Operations from their call to their end -/

/-- `~shared_ptr()`, called by the owner of the handle: three steps of `release()` at most,
and one to end the lifetime. -/
def World.destroy [Inhabited D] (w : World n T D) (h : Fin n) : World n T D :=
  match w.call (w.owner h) (.dtor h) with
  | some v => Loop.iterate (fun v => v.advance (w.owner h)) 4 v
  | none => w

/-- The handles are destroyed one after the other. -/
def World.destroyAll [Inhabited D] (w : World n T D) (order : List (Fin n)) : World n T D :=
  order.foldl World.destroy w

/-- The next step of a thread for which `e` throws. -/
def World.failing (w : World n T D) (t : T) (e : Failure) : Option (World n T D) :=
  match w.throw t e with
  | some w' => some w'
  | none => w.advance t

/-- `reset(x, d)`, called by the owner of the handle, where `e` throws: three steps of
`release()` at most, and the exception. -/
def World.resetThrow [Inhabited D] (w : World n T D) (h : Fin n) (x : Nat) (d : D) (e : Failure) :
    World n T D :=
  match w.call (w.owner h) (.resetTo h (some x) d) with
  | some v => Loop.iterate (fun v => v.failing (w.owner h) e) 4 v
  | none => w

end QuickStructs.SharedPtr
