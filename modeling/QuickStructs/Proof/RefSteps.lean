import QuickStructs.Lib.Tally
import QuickStructs.Handle.SharedPtr

/-!
# Reference counts are exact

In the middle of an operation a handle may point to a block whose count no longer, or
not yet, includes it. Such a handle is loose: its thread has given the old reference up
and has not overwritten the fields, or has copied the fields and not yet called
`add_ref`. Every other handle is counted for the block it points to, a count is the
number of handles counted, and that is all an operation has to keep up.

A block goes through four stages: live while its count is positive, then in the hands
of the one thread whose `fetch_sub` found a one, first before the deleter and then
after it, and at last freed. Nobody else can reach it in the last three, so a
`fetch_add` or a `fetch_sub` only ever meets a live block.
-/

namespace QuickStructs.SharedPtr

open Lib Tally

variable {n : Nat} {T D : Type}
variable {w w' : World n T D} {t u : T} {h o : Fin n} {b : Nat} {p : Thread n D} {wr : Write n D}

/-! ## What a thread is doing -/

/-- The handle that points to a block and is not counted for it. -/
def Thread.loose : Thread n D → Option (Fin n)
  | .idle | .release _ _ => none
  | .dispose _ h _ | .free _ h _ | .write h _ | .addRef h => some h

/-- The block that the thread is about to dispose of. -/
def Thread.ending : Thread n D → Option Nat
  | .dispose b _ _ | .free b _ _ => some b
  | _ => none

/-- The handle of the operation, and what will be written to it. -/
def Thread.writes : Thread n D → Option (Fin n × Write n D)
  | .release h wr | .dispose _ h wr | .free _ h wr | .write h wr => some (h, wr)
  | .idle | .addRef _ => none

/-- The handle that is read by a write. -/
def Write.source : Write n D → Option (Fin n)
  | .copy o | .move o => some o
  | _ => none

/-! ## The invariant -/

/-- The number of handles that are counted for a block. -/
def World.refs (w : World n T D) (b : Nat) : Nat := tally (fun c => c == some b) w.counted

/-- The calls of deleters on what a block manages. -/
def World.deletionsOf (w : World n T D) (b : Nat) : List (Deletion D) :=
  w.deletions.filter fun e => e.block == b

/-- All the calls there will be: one, unless the managed pointer is null. -/
def ControlBlock.spent (block : ControlBlock D) (b : Nat) : List (Deletion D) :=
  block.managed.toList.map fun x => ⟨b, x, block.deleter⟩

/-- A thread and the handles it owns. -/
structure ThreadOk (w : World n T D) (t : T) : Prop where
  loose : ∀ h, (w.threads t).loose = some h → w.owner h = t ∧ w.counted h = none
  counted : ∀ h, w.owner h = t → (w.threads t).loose ≠ some h → w.counted h = w.p_cb h
  writes : ∀ h wr, (w.threads t).writes = some (h, wr) →
    w.owner h = t ∧ ∀ o, wr.source = some o → o ≠ h ∧ w.owner o = t
  /-- `add_ref` is called while the handle that was copied keeps the block. -/
  adding : ∀ h, w.threads t = .addRef h → ∃ o, o ≠ h ∧ w.owner o = t ∧ w.p_cb o = w.p_cb h

/-- The pointer a block was made for, if there is a block at the address. -/
def World.managedAt (w : World n T D) (b : Nat) : Option (Option Nat) :=
  (w.blocks.cells b).map ControlBlock.managed

/-- A handle has the pointer of its block, or is null. -/
def Fits (w : World n T D) (x : Handle) : Prop :=
  match x.p_cb with
  | none => x.p_obj = none
  | some b => w.managedAt b = some x.p_obj

inductive Stage (w : World n T D) (b : Nat) (block : ControlBlock D) : Prop where
  | live (hpos : 0 < block.m_count) (hfreed : block.freed = false)
      (hobj : block.p_obj = block.managed) (hdel : w.deletionsOf b = [])
      (hend : ∀ u, (w.threads u).ending ≠ some b)
  | last (t : T) (h : Fin n) (wr : Write n D) (ht : w.threads t = .dispose b h wr)
      (hzero : block.m_count = 0) (hfreed : block.freed = false)
      (hobj : block.p_obj = block.managed) (hdel : w.deletionsOf b = [])
      (hend : ∀ u, (w.threads u).ending = some b → u = t)
  | disposed (t : T) (h : Fin n) (wr : Write n D) (ht : w.threads t = .free b h wr)
      (hzero : block.m_count = 0) (hfreed : block.freed = false)
      (hdel : w.deletionsOf b = block.spent b)
      (hend : ∀ u, (w.threads u).ending = some b → u = t)
  | freed (hzero : block.m_count = 0) (hfreed : block.freed = true)
      (hdel : w.deletionsOf b = block.spent b) (hend : ∀ u, (w.threads u).ending ≠ some b)

structure Inv (w : World n T D) : Prop where
  threads : ∀ t, ThreadOk w t
  handles : ∀ h x, w.handles h = some x → Fits w x
  counts : ∀ b block, w.blocks.cells b = some block → block.m_count = w.refs b
  counted : ∀ h b, w.counted h = some b → ∃ block, w.blocks.cells b = some block
  ending : ∀ t b, (w.threads t).ending = some b → ∃ block, w.blocks.cells b = some block
  stages : ∀ b block, w.blocks.cells b = some block → Stage w b block
  adopted : ∀ b x, w.managedAt b = some (some x) → x ∈ w.adopted
  distinct : ∀ b c x, w.managedAt b = some (some x) → w.managedAt c = some (some x) → b = c
  deletions : ∀ e ∈ w.deletions, ∃ block, w.blocks.cells e.block = some block
  faultless : w.faulted = false

/-! ## What an operation can reach -/

theorem pos_of_counted (hinv : Inv w) (hc : w.counted h = some b) :
    ∃ block, w.blocks.cells b = some block ∧ 0 < block.m_count := by
  obtain ⟨block, hb⟩ := hinv.counted h b hc
  refine ⟨block, hb, ?_⟩
  rw [hinv.counts b block hb]
  exact tally_pos (i := h) (by simp [hc])

/-- A block with a positive count is live. -/
theorem Stage.freed_of_pos {block : ControlBlock D} (hs : Stage w b block)
    (hpos : 0 < block.m_count) : block.freed = false := by
  cases hs with
  | live _ hfreed _ _ _ => exact hfreed
  | last _ _ _ _ hzero _ _ _ _ => omega
  | disposed _ _ _ _ hzero _ _ _ => omega
  | freed hzero _ _ _ => omega

/-- A thread before the deleter has the block for itself. -/
theorem stage_of_dispose (hinv : Inv w) (ht : w.threads t = .dispose b h wr) :
    ∃ block, w.blocks.cells b = some block ∧ block.m_count = 0 ∧ block.freed = false
      ∧ block.p_obj = block.managed ∧ w.deletionsOf b = []
      ∧ ∀ u, (w.threads u).ending = some b → u = t := by
  have hend : (w.threads t).ending = some b := by rw [ht]; rfl
  obtain ⟨block, hb⟩ := hinv.ending t b hend
  refine ⟨block, hb, ?_⟩
  cases hinv.stages b block hb with
  | live _ _ _ _ hother => exact absurd hend (hother t)
  | last t' h' wr' ht' hzero hfreed hobj hdel hother =>
      rw [hother t hend]
      exact ⟨hzero, hfreed, hobj, hdel, hother⟩
  | disposed t' h' wr' ht' _ _ _ hother =>
      rw [← hother t hend, ht] at ht'
      exact absurd ht' (by simp)
  | freed _ _ _ hother => exact absurd hend (hother t)

/-- A thread after the deleter has the block for itself. -/
theorem stage_of_free (hinv : Inv w) (ht : w.threads t = .free b h wr) :
    ∃ block, w.blocks.cells b = some block ∧ block.m_count = 0 ∧ block.freed = false
      ∧ w.deletionsOf b = block.spent b ∧ ∀ u, (w.threads u).ending = some b → u = t := by
  have hend : (w.threads t).ending = some b := by rw [ht]; rfl
  obtain ⟨block, hb⟩ := hinv.ending t b hend
  refine ⟨block, hb, ?_⟩
  cases hinv.stages b block hb with
  | live _ _ _ _ hother => exact absurd hend (hother t)
  | last t' h' wr' ht' _ _ _ _ hother =>
      rw [← hother t hend, ht] at ht'
      exact absurd ht' (by simp)
  | disposed t' h' wr' ht' hzero hfreed hdel hother =>
      rw [hother t hend]
      exact ⟨hzero, hfreed, hdel, hother⟩
  | freed _ _ _ hother => exact absurd hend (hother t)

theorem touch_eq {block : ControlBlock D} {f : ControlBlock D → World n T D}
    (hb : w.blocks.cells b = some block) (hfreed : block.freed = false) :
    w.touch b f = f block := by
  unfold World.touch
  rw [hb]
  simp [hfreed]

theorem idle_of_matches (hp : (p matches .idle) = true) : p = .idle := by
  cases p with
  | idle => rfl
  | _ => exact absurd hp (by simp)

/-- An operation on a handle that is being constructed reads another one. -/
theorem source_ne (hc : w.mayConstruct t h) (hu : w.mayUse t o) : o ≠ h ∧ w.owner o = t := by
  refine ⟨fun ho => ?_, hu.1⟩
  rw [ho] at hu
  exact hu.2 hc.2

/-! ## Steps, case by case -/

variable [DecidableEq T]

/-- The steps, with every control block found where it is looked for. -/
inductive Moves (w : World n T D) : World n T D → Prop where
  /-- An assignment of a handle to itself. -/
  | stay : Moves w w
  | give (h : Fin n) (t : T) (hidle : w.threads (w.owner h) = .idle) :
      Moves w { w with owner := Function.update w.owner h t }
  | start (t : T) (h : Fin n) (wr : Write n D) (hidle : w.threads t = .idle) (how : w.owner h = t)
      (hsrc : ∀ o, wr.source = some o → o ≠ h ∧ w.owner o = t) :
      Moves w (w.goto t (.release h wr))
  | construct (t : T) (h : Fin n) (wr : Write n D) (hidle : w.threads t = .idle)
      (how : w.owner h = t) (hsrc : ∀ o, wr.source = some o → o ≠ h ∧ w.owner o = t)
      (hnone : w.handles h = none) : Moves w (w.goto t (.write h wr))
  /-- There is no reference to give up. -/
  | skip (t : T) (h : Fin n) (wr : Write n D) (ht : w.threads t = .release h wr)
      (hcb : w.p_cb h = none) : Moves w (w.goto t (.write h wr))
  | fetchSub (t : T) (h : Fin n) (wr : Write n D) (b : Nat) (block : ControlBlock D)
      (ht : w.threads t = .release h wr) (hc : w.counted h = some b)
      (hb : w.blocks.cells b = some block) (hpos : 0 < block.m_count) :
      Moves w
        (((w.setBlock b fun c => { c with m_count := c.m_count - 1 }).setCounted h none).goto t
        (if block.m_count = 1 then .dispose b h wr else .write h wr))
  | dispose (t : T) (h : Fin n) (wr : Write n D) (b x : Nat) (block : ControlBlock D)
      (ht : w.threads t = .dispose b h wr) (hb : w.blocks.cells b = some block)
      (hobj : block.p_obj = some x) :
      Moves w { (w.setBlock b fun c => { c with p_obj := none }).goto t (.free b h wr) with
        deletions := w.deletions ++ [⟨b, x, block.deleter⟩] }
  | keep (t : T) (h : Fin n) (wr : Write n D) (b : Nat) (block : ControlBlock D)
      (ht : w.threads t = .dispose b h wr) (hb : w.blocks.cells b = some block)
      (hobj : block.p_obj = none) : Moves w (w.goto t (.free b h wr))
  | free (t : T) (h : Fin n) (wr : Write n D) (b : Nat) (ht : w.threads t = .free b h wr) :
      Moves w ((w.setBlock b fun c => { c with freed := true }).goto t (.write h wr))
  | copy (t : T) (h o : Fin n) (ht : w.threads t = .write h (.copy o)) :
      Moves w ((w.setHandle h (w.handles o)).goto t (.addRef h))
  | move (t : T) (h o : Fin n) (ht : w.threads t = .write h (.move o)) :
      Moves w ((w.steal h o).goto t .idle)
  | null (t : T) (h : Fin n) (wr : Write n D) (ht : w.threads t = .write h wr) (x : Option Handle)
      (hx : x = some {} ∨ x = none) : Moves w ((w.setHandle h x).goto t .idle)
  | create (t : T) (h : Fin n) (wr : Write n D) (ht : w.threads t = .write h wr)
      (pointer : Option Nat) (d : D) (hfresh : ∀ x ∈ pointer, x ∉ w.adopted) :
      Moves w ((w.create h pointer d).goto t .idle)
  | fetchAdd (t : T) (h : Fin n) (b : Nat) (block : ControlBlock D) (ht : w.threads t = .addRef h)
      (hcb : w.p_cb h = some b) (hb : w.blocks.cells b = some block) (hpos : 0 < block.m_count) :
      Moves w (((w.setBlock b fun c => { c with m_count := c.m_count + 1 }).setCounted h
        (some b)).goto t .idle)
  | addNull (t : T) (h : Fin n) (ht : w.threads t = .addRef h) (hcb : w.p_cb h = none) :
      Moves w (w.goto t .idle)

/-- **A `fetch_sub` finds a live block.** -/
theorem fetchSub_moves (hinv : Inv w) (ht : w.threads t = .release h wr) (hcb : w.p_cb h = some b) :
    Moves w (w.fetchSub t h wr b) := by
  obtain ⟨how, _⟩ := (hinv.threads t).writes h wr (by rw [ht]; rfl)
  have hc : w.counted h = some b := by
    rw [(hinv.threads t).counted h how (by rw [ht]; simp [Thread.loose]), hcb]
  obtain ⟨block, hb, hpos⟩ := pos_of_counted hinv hc
  unfold World.fetchSub
  rw [touch_eq hb ((hinv.stages b block hb).freed_of_pos hpos)]
  exact .fetchSub t h wr b block ht hc hb hpos

/-- **A `fetch_add` finds a live block**: the handle that was copied keeps it. -/
theorem fetchAdd_moves (hinv : Inv w) (ht : w.threads t = .addRef h) (hcb : w.p_cb h = some b) :
    Moves w (w.fetchAdd t h b) := by
  obtain ⟨o, hne, how, ho⟩ := (hinv.threads t).adding h ht
  have hc : w.counted o = some b := by
    rw [(hinv.threads t).counted o how, ho, hcb]
    rw [ht]
    intro hl
    exact hne (Option.some.inj hl).symm
  obtain ⟨block, hb, hpos⟩ := pos_of_counted hinv hc
  unfold World.fetchAdd
  rw [touch_eq hb ((hinv.stages b block hb).freed_of_pos hpos)]
  exact .fetchAdd t h b block ht hcb hb hpos

theorem dispose_moves (hinv : Inv w) (ht : w.threads t = .dispose b h wr) :
    Moves w (w.dispose t h wr b) := by
  obtain ⟨block, hb, _, hfreed, _, _, _⟩ := stage_of_dispose hinv ht
  unfold World.dispose
  rw [touch_eq hb hfreed]
  split
  · rename_i x hobj
    exact .dispose t h wr b x block ht hb hobj
  · rename_i hobj
    exact .keep t h wr b block ht hb hobj

theorem free_moves (hinv : Inv w) (ht : w.threads t = .free b h wr) :
    Moves w (w.free t h wr b) := by
  obtain ⟨block, hb, _, hfreed, _⟩ := stage_of_free hinv ht
  unfold World.free
  rw [touch_eq hb hfreed]
  exact .free t h wr b ht

theorem write_moves (ht : w.threads t = .write h wr) (hs : w.write t h wr = some w') :
    Moves w w' := by
  cases wr with
  | copy o =>
      injection hs with hs
      rw [← hs]
      exact .copy t h o ht
  | move o =>
      injection hs with hs
      rw [← hs]
      exact .move t h o ht
  | null =>
      injection hs with hs
      rw [← hs]
      exact .null t h .null ht _ (Or.inl rfl)
  | create pointer d =>
      obtain ⟨hfresh, rfl⟩ := Transition.of_guard hs
      exact .create t h _ ht pointer d hfresh
  | adopt pointer d =>
      cases pointer with
      | none =>
          injection hs with hs
          rw [← hs]
          exact .null t h _ ht _ (Or.inl rfl)
      | some x =>
          obtain ⟨hfresh, rfl⟩ := Transition.of_guard hs
          refine .create t h _ ht (some x) d fun y hy => ?_
          rw [← Option.mem_some.mp hy]
          exact hfresh
  | destroy =>
      injection hs with hs
      rw [← hs]
      exact .null t h _ ht none (Or.inr rfl)

theorem advance_moves (hinv : Inv w) (hs : w.advance t = some w') : Moves w w' := by
  unfold World.advance at hs
  split at hs
  · exact absurd hs (by simp)
  · rename_i h wr ht
    split at hs
    · rename_i b hcb
      injection hs with hs
      rw [← hs]
      exact fetchSub_moves hinv ht hcb
    · rename_i hcb
      injection hs with hs
      rw [← hs]
      exact .skip t h wr ht hcb
  · rename_i b h wr ht
    injection hs with hs
    rw [← hs]
    exact dispose_moves hinv ht
  · rename_i b h wr ht
    injection hs with hs
    rw [← hs]
    exact free_moves hinv ht
  · rename_i h wr ht
    exact write_moves ht hs
  · rename_i h ht
    split at hs
    · rename_i b hcb
      injection hs with hs
      rw [← hs]
      exact fetchAdd_moves hinv ht hcb
    · rename_i hcb
      injection hs with hs
      rw [← hs]
      exact .addNull t h ht hcb

theorem call_moves [Inhabited D] {op : Op n D} (hidle : w.threads t = .idle)
    (hs : w.call t op = some w') : Moves w w' := by
  cases op with
  | defaultCtor h =>
      obtain ⟨hc, rfl⟩ := Transition.of_guard hs
      exact .construct t h _ hidle hc.1 (by simp [Write.source]) hc.2
  | pointerCtor h pointer =>
      obtain ⟨hc, rfl⟩ := Transition.of_guard hs
      exact .construct t h _ hidle hc.1 (by simp [Write.source]) hc.2
  | deleterCtor h pointer d =>
      obtain ⟨hc, rfl⟩ := Transition.of_guard hs
      exact .construct t h _ hidle hc.1 (by simp [Write.source]) hc.2
  | copyCtor h o =>
      obtain ⟨hc, rfl⟩ := Transition.of_guard hs
      refine .construct t h _ hidle hc.1.1 (fun o' ho => ?_) hc.1.2
      rw [← Option.some.inj ho]
      exact source_ne hc.1 hc.2
  | moveCtor h o =>
      obtain ⟨hc, rfl⟩ := Transition.of_guard hs
      refine .construct t h _ hidle hc.1.1 (fun o' ho => ?_) hc.1.2
      rw [← Option.some.inj ho]
      exact source_ne hc.1 hc.2
  | copyAssign h o =>
      obtain ⟨hc, rfl⟩ := Transition.of_guard hs
      split
      · rename_i hne
        refine .start t h _ hidle hc.1.1 fun o' ho => ?_
        rw [← Option.some.inj ho]
        exact ⟨Ne.symm hne, hc.2.1⟩
      · exact .stay
  | moveAssign h o =>
      obtain ⟨hc, rfl⟩ := Transition.of_guard hs
      split
      · rename_i hne
        refine .start t h _ hidle hc.1.1 fun o' ho => ?_
        rw [← Option.some.inj ho]
        exact ⟨Ne.symm hne, hc.2.1⟩
      · exact .stay
  | reset h =>
      obtain ⟨hc, rfl⟩ := Transition.of_guard hs
      exact .start t h _ hidle hc.1 (by simp [Write.source])
  | resetTo h pointer d =>
      obtain ⟨hc, rfl⟩ := Transition.of_guard hs
      exact .start t h _ hidle hc.1 (by simp [Write.source])
  | dtor h =>
      obtain ⟨hc, rfl⟩ := Transition.of_guard hs
      exact .start t h _ hidle hc.1 (by simp [Write.source])

theorem step_moves [Inhabited D] {a : Action n T D} (hinv : Inv w) (hs : step w a = some w') :
    Moves w w' := by
  cases a with
  | call t op =>
      rw [step, Option.ite_none_right_eq_some] at hs
      exact call_moves (idle_of_matches hs.1) hs.2
  | advance t => exact advance_moves hinv hs
  | give h t =>
      obtain ⟨hidle, rfl⟩ := Transition.of_guard hs
      exact .give h t (idle_of_matches hidle)

end QuickStructs.SharedPtr
