import QuickStructs.Proof.RefCount

/-!
# What the calls have given

A raw pointer comes with a call, and its deleter with it. Both wait in the operation of the thread
until the old reference is given up, and go to a new control block then. So the control blocks are
for what the calls of a run were given, and what they were given has a control block, or will have
one when its thread gets there.
-/

namespace QuickStructs.SharedPtr

open Lib

variable {n : Nat} {T D : Type}
variable {w w' : World n T D} {t : T} {h : Fin n} {b : Nat} {p : Thread n D} {wr : Write n D}
variable {pointer : Option Nat} {d : D} {gs new : List (Option Nat × D)}

/-- The pointer and the deleter that a call is given. -/
def Op.gives [Inhabited D] : Op n D → List (Option Nat × D)
  | .pointerCtor _ pointer => [(pointer, default)]
  | .deleterCtor _ pointer d | .resetTo _ pointer d => [(pointer, d)]
  | _ => []

def Action.gives [Inhabited D] : Action n T D → List (Option Nat × D)
  | .call _ op => op.gives
  | _ => []

def Write.takes : Write n D → List (Option Nat × D)
  | .create pointer d | .adopt pointer d => [(pointer, d)]
  | _ => []

/-- What a thread has still to take over. -/
def Thread.takes : Thread n D → List (Option Nat × D)
  | .release _ wr | .dispose _ _ wr | .free _ _ wr | .write _ wr => wr.takes
  | .idle | .addRef _ => []

/-- What the control block at an address was made for. -/
def World.madeFor (w : World n T D) (b : Nat) : Option (Option Nat × D) :=
  (w.blocks.cells b).map fun block => (block.managed, block.deleter)

theorem madeFor_create :
    (w.create h pointer d).madeFor b
      = if b = w.blocks.next then some (pointer, d) else w.madeFor b := by
  unfold World.madeFor
  show ((w.blocks.alloc _).cells b).map _ = _
  split
  · rename_i hb
    rw [hb, Heap.alloc_self]
    rfl
  · rename_i hb
    rw [Heap.alloc_of_ne hb]

/-- Nothing is at the address of the next block. -/
theorem madeFor_next {e : Option Nat × D} (he : w.madeFor b = some e) : b ≠ w.blocks.next := by
  rintro rfl
  unfold World.madeFor at he
  rw [Heap.next_free] at he
  exact absurd he (by simp)

variable [DecidableEq T]

/-- A step, and what it was given. -/
inductive TakeStep (w : World n T D) : World n T D → List (Option Nat × D) → Prop where
  | keep {w' : World n T D} (hblocks : ∀ b, w'.madeFor b = w.madeFor b)
      (hadopted : w'.adopted = w.adopted)
      (hthreads : ∀ t, (w'.threads t).takes = (w.threads t).takes) : TakeStep w w' []
  /-- There is no control block for a null pointer. -/
  | drop (t : T) (h : Fin n) (d : D) (ht : (w.threads t).takes = [(none, d)]) :
      TakeStep w ((w.setHandle h (some {})).goto t .idle) []
  | call (t : T) (p : Thread n D) (ht : (w.threads t).takes = []) :
      TakeStep w (w.goto t p) p.takes
  | create (t : T) (h : Fin n) (pointer : Option Nat) (d : D)
      (ht : (w.threads t).takes = [(pointer, d)]) :
      TakeStep w ((w.create h pointer d).goto t .idle) []

/-! ## Step by step -/

/-- The thread goes on, with what it had to take over. -/
theorem takes_goto (hblocks : ∀ b, w'.madeFor b = w.madeFor b) (hadopted : w'.adopted = w.adopted)
    (hthreads : w'.threads = Function.update w.threads t p)
    (hp : p.takes = (w.threads t).takes) : TakeStep w w' [] := by
  refine .keep hblocks hadopted fun u => ?_
  rw [hthreads]
  by_cases hu : u = t
  · rw [hu, Function.update_self, hp]
  · rw [Function.update_of_ne hu]

/-- An operation on a control block. -/
theorem takes_touch {f : ControlBlock D → World n T D} (hf : ∀ block, TakeStep w (f block) []) :
    TakeStep w (w.touch b f) [] := by
  unfold World.touch
  split
  · split
    · exact .keep (fun _ => rfl) rfl fun _ => rfl
    · exact hf _
  · exact .keep (fun _ => rfl) rfl fun _ => rfl

theorem write_takes (ht : w.threads t = .write h wr) (hs : w.write t h wr = some w') :
    TakeStep w w' [] := by
  unfold World.write at hs
  split at hs
  · injection hs with hs
    rw [← hs]
    exact takes_goto (fun _ => rfl) rfl rfl (by rw [ht]; rfl)
  · injection hs with hs
    rw [← hs]
    exact takes_goto (fun _ => rfl) rfl rfl (by rw [ht]; rfl)
  · injection hs with hs
    rw [← hs]
    exact takes_goto (fun _ => rfl) rfl rfl (by rw [ht]; rfl)
  · obtain ⟨_, rfl⟩ := Transition.of_guard hs
    exact .create t h _ _ (by rw [ht]; rfl)
  · injection hs with hs
    rw [← hs]
    exact .drop t h _ (by rw [ht]; rfl)
  · obtain ⟨_, rfl⟩ := Transition.of_guard hs
    exact .create t h _ _ (by rw [ht]; rfl)
  · injection hs with hs
    rw [← hs]
    exact takes_goto (fun _ => rfl) rfl rfl (by rw [ht]; rfl)

theorem advance_takes (hs : w.advance t = some w') : TakeStep w w' [] := by
  unfold World.advance at hs
  split at hs
  · exact absurd hs (by simp)
  · rename_i h wr ht
    split at hs
    · injection hs with hs
      rw [← hs]
      refine takes_touch fun block => ?_
      refine takes_goto (fun _ => map_setBlock _ fun _ => rfl) rfl rfl ?_
      rw [ht]
      split <;> rfl
    · injection hs with hs
      rw [← hs]
      exact takes_goto (fun _ => rfl) rfl rfl (by rw [ht]; rfl)
  · rename_i b h wr ht
    injection hs with hs
    rw [← hs]
    refine takes_touch fun block => ?_
    split
    · exact takes_goto (fun _ => map_setBlock _ fun _ => rfl) rfl rfl (by rw [ht]; rfl)
    · exact takes_goto (fun _ => rfl) rfl rfl (by rw [ht]; rfl)
  · rename_i b h wr ht
    injection hs with hs
    rw [← hs]
    refine takes_touch fun block => ?_
    exact takes_goto (fun _ => map_setBlock _ fun _ => rfl) rfl rfl (by rw [ht]; rfl)
  · rename_i h wr ht
    exact write_takes ht hs
  · rename_i h ht
    split at hs
    · injection hs with hs
      rw [← hs]
      refine takes_touch fun block => ?_
      exact takes_goto (fun _ => map_setBlock _ fun _ => rfl) rfl rfl (by rw [ht]; rfl)
    · injection hs with hs
      rw [← hs]
      exact takes_goto (fun _ => rfl) rfl rfl (by rw [ht]; rfl)

theorem call_takes [Inhabited D] {op : Op n D} (hidle : w.threads t = .idle)
    (hs : w.call t op = some w') : TakeStep w w' op.gives := by
  have ht : (w.threads t).takes = [] := by
    rw [hidle]
    rfl
  cases op with
  | copyAssign h o | moveAssign h o =>
      obtain ⟨_, rfl⟩ := Transition.of_guard hs
      split
      · exact .call t _ ht
      · exact .keep (fun _ => rfl) rfl fun _ => rfl
  | defaultCtor h | pointerCtor h pointer | deleterCtor h pointer d | copyCtor h o | moveCtor h o
  | reset h | resetTo h pointer d | dtor h =>
      obtain ⟨_, rfl⟩ := Transition.of_guard hs
      exact .call t _ ht

theorem step_takes [Inhabited D] {a : Action n T D} (hs : step w a = some w') :
    TakeStep w w' a.gives := by
  cases a with
  | call t op =>
      rw [step, Option.ite_none_right_eq_some] at hs
      exact call_takes (idle_of_matches hs.1) hs.2
  | advance t => exact advance_takes hs
  | give h t =>
      obtain ⟨_, rfl⟩ := Transition.of_guard hs
      exact .keep (fun _ => rfl) rfl fun _ => rfl

/-! ## Over a run -/

/-- The control blocks, and what the threads have still to take over, come to what was given. -/
structure Given (gs : List (Option Nat × D)) (w : World n T D) : Prop where
  blocks : ∀ b e, w.madeFor b = some e → e ∈ gs
  threads : ∀ t e, e ∈ (w.threads t).takes → e ∈ gs
  /-- A pointer that was given is with a control block, or will be. -/
  taken : ∀ x d, (some x, d) ∈ gs →
    (∃ b, w.madeFor b = some (some x, d)) ∨ ∃ t, (some x, d) ∈ (w.threads t).takes
  /-- Adopted are the pointers that have a control block. -/
  adopted : ∀ x, x ∈ w.adopted ↔ ∃ b d, w.madeFor b = some (some x, d)

theorem takes_update (u : T) (p : Thread n D) : ((w.goto t p).threads u).takes
    = if u = t then p.takes else (w.threads u).takes := by
  show (Function.update w.threads t p u).takes = _
  split
  · rename_i hu
    rw [hu, Function.update_self]
  · rename_i hu
    rw [Function.update_of_ne hu]

theorem given_step (hg : Given gs w) (hs : TakeStep w w' new) : Given (gs ++ new) w' := by
  cases hs with
  | keep hblocks hadopted hthreads =>
      rw [List.append_nil]
      refine ⟨?_, ?_, ?_, ?_⟩
      · simpa only [hblocks] using hg.blocks
      · simpa only [hthreads] using hg.threads
      · simpa only [hblocks, hthreads] using hg.taken
      · simpa only [hblocks, hadopted] using hg.adopted
  | drop t h d ht =>
      rw [List.append_nil]
      refine ⟨hg.blocks, fun u e he => ?_, fun x d' hx => ?_, hg.adopted⟩
      · rw [takes_update] at he
        split at he
        · exact absurd he List.not_mem_nil
        · exact hg.threads u e he
      · rcases hg.taken x d' hx with hb | ⟨u, hu⟩
        · exact .inl hb
        · refine .inr ⟨u, ?_⟩
          rw [takes_update]
          split
          · rename_i hut
            rw [hut, ht] at hu
            exact absurd hu (by simp)
          · exact hu
  | call t p ht =>
      refine ⟨fun b e he => List.mem_append_left _ (hg.blocks b e he), fun u e he => ?_,
        fun x d hx => ?_, hg.adopted⟩
      · rw [takes_update] at he
        split at he
        · exact List.mem_append_right _ he
        · exact List.mem_append_left _ (hg.threads u e he)
      · rcases List.mem_append.mp hx with hold | hnew
        · rcases hg.taken x d hold with hb | ⟨u, hu⟩
          · exact .inl hb
          · refine .inr ⟨u, ?_⟩
            rw [takes_update, if_neg]
            · exact hu
            · rintro rfl
              rw [ht] at hu
              exact absurd hu List.not_mem_nil
        · exact .inr ⟨t, by rw [takes_update, if_pos rfl]; exact hnew⟩
  | create t h pointer d ht =>
      rw [List.append_nil]
      have hmade : ∀ b, ((w.create h pointer d).goto t .idle).madeFor b
          = if b = w.blocks.next then some (pointer, d) else w.madeFor b :=
            fun b => madeFor_create (h := h)
      have hold : ∀ {b e}, w.madeFor b = some e →
          ((w.create h pointer d).goto t .idle).madeFor b = some e := by
        intro b e he
        rw [hmade, if_neg (madeFor_next he), he]
      have hnew : ((w.create h pointer d).goto t .idle).madeFor w.blocks.next
          = some (pointer, d) := by rw [hmade, if_pos rfl]
      refine ⟨fun b e he => ?_, fun u e he => ?_, fun x d' hx => ?_, fun x => ?_⟩
      · rw [hmade] at he
        split at he
        · exact hg.threads t e (by rw [ht, Option.some.inj he]; exact List.mem_singleton_self e)
        · exact hg.blocks b e he
      · rw [takes_update] at he
        split at he
        · exact absurd he List.not_mem_nil
        · exact hg.threads u e he
      · rcases hg.taken x d' hx with ⟨b, hb⟩ | ⟨u, hu⟩
        · exact .inl ⟨b, hold hb⟩
        · by_cases hut : u = t
          · rw [hut, ht, List.mem_singleton] at hu
            exact .inl ⟨_, hu ▸ hnew⟩
          · exact .inr ⟨u, by rw [takes_update, if_neg hut]; exact hu⟩
      · show x ∈ pointer.toList ++ w.adopted ↔ _
        rw [List.mem_append, Option.mem_toList, hg.adopted]
        constructor
        · rintro (rfl | ⟨b, d', hb⟩)
          · exact ⟨_, d, hnew⟩
          · exact ⟨b, d', hold hb⟩
        · rintro ⟨b, d', hb⟩
          rw [hmade] at hb
          split at hb
          · exact .inl (congrArg Prod.fst (Option.some.inj hb))
          · exact .inr ⟨b, d', hb⟩

/-- **What the calls of a run have given** is what the control blocks were made for, with the
deleters they have, but for the operations that have not come to it; and these are the pointers
that were adopted. -/
theorem given_run [Inhabited D] (owner : Fin n → T) (as : List (Action n T D)) (w : World n T D)
    (hrun : Transition.exec step (.start owner) as = some w) :
    Given (as.flatMap Action.gives) w := by
  refine Transition.exec_trace (I := fun as w => Given (as.flatMap Action.gives) w) ?_ ?_ as hrun
  · refine ⟨fun b e he => absurd he (by simp [World.madeFor, World.start]),
      fun t e he => absurd he List.not_mem_nil, fun x d hx => absurd hx List.not_mem_nil,
      fun x => iff_of_false List.not_mem_nil ?_⟩
    rintro ⟨b, d, hb⟩
    exact absurd hb (by simp [World.madeFor, World.start])
  · intro as w a w' hg hs
    rw [List.flatMap_append, List.flatMap_singleton]
    exact given_step hg (step_takes hs)

end QuickStructs.SharedPtr
