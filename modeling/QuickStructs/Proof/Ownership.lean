import QuickStructs.Handle.UniquePtr

/-!
# Every object is deleted once, and by its own deleter

Pointer and deleter are separate fields, written in separate steps. What the operations
do to the pair is told as a book of custody: a place is a handle, its label the handle's
deleter, and an operation is at most one disposal followed by one adoption or one move.
The book has the label follow the object, so what is left to show is that each operation
has the effect on the fields that the book asks for, whichever of the handles are null.
-/

namespace QuickStructs.UniquePtr

open Lib Custody

variable {H K D : Type} {δ : Deleters K D} {kind : H → K}
variable {w w' : World H K D} {h o : H} {x y : Handle D} {ptr : Option Nat} {d : D} {u v : K}

/-! ## The book of a world -/

/-- What a handle has in custody, with its deleter. -/
def Handle.holds (x : Handle D) : Option (Nat × D) := x.m_ptr.map fun p => (p, x.m_deleter)

def World.book (δ : Deleters K D) (w : World H K D) : Book H Nat D where
  slot h := (w.handles h).bind Handle.holds
  expected p := (w.adoption p).map (Adoption.carried δ)
  disposed := w.deletions
  released := w.released

theorem slot_some (hx : w.handles h = some x) : (w.book δ).slot h = x.holds := by
  show (w.handles h).bind Handle.holds = x.holds
  rw [hx]
  rfl

theorem slot_none (hx : w.handles h = none) : (w.book δ).slot h = none := by
  show (w.handles h).bind Handle.holds = none
  rw [hx]
  rfl

theorem carried_convert (a : Adoption K D) (u v : K) :
    Adoption.carried δ { a with route := a.route ++ [(u, v)] } = δ.convert u v (a.carried δ) := by
  unfold Adoption.carried
  rw [List.foldl_append]
  rfl

/-- A handle that takes the fields over has what the other had, under the deleter as it was
taken over. -/
theorem holds_map (conv : D → D) :
    Handle.holds ⟨y.m_ptr, conv y.m_deleter⟩ = y.holds.map (Prod.map id conv) := by
  unfold Handle.holds
  cases y.m_ptr <;> rfl

theorem delete_eq : w.delete ptr d
    = { w with deletions := w.deletions ++ (ptr.map fun p => (p, d)).toList } := by
  cases ptr with
  | none =>
      show w = { w with deletions := w.deletions ++ [] }
      rw [List.append_nil]
  | some p => rfl

theorem expected_congr (hadoption : w'.adoption = w.adoption) :
    (w'.book δ).expected = (w.book δ).expected := by
  show (fun p => (w'.adoption p).map (Adoption.carried δ)) = _
  rw [hadoption]
  rfl

theorem convert_fields (w : World H K D) (ptr : Option Nat) (u v : K) :
    (w.convert ptr u v).handles = w.handles
    ∧ (w.convert ptr u v).deletions = w.deletions ∧ (w.convert ptr u v).released = w.released := by
  cases ptr <;> exact ⟨rfl, rfl, rfl⟩

/-- A converting move of what is in a handle. -/
theorem expected_convert (hs : Sound (w.book δ)) (hy : w.handles o = some y)
    (hadoption : w'.adoption = w.adoption) :
    ((w'.convert y.m_ptr u v).book δ).expected
      = (w.book δ).relabel ((w.book δ).slot o) (δ.convert u v) := by
  rw [slot_some hy]
  cases hp : y.m_ptr with
  | none =>
      have hholds : y.holds = none := by rw [Handle.holds, hp]; rfl
      rw [hholds]
      exact expected_congr hadoption
  | some p =>
      have hholds : y.holds = some (p, y.m_deleter) := by rw [Handle.holds, hp]; rfl
      obtain ⟨hexp, _⟩ := hs.held ((slot_some hy).trans hholds)
      obtain ⟨a, ha, hcarried⟩ := Option.map_eq_some_iff.mp hexp
      rw [hholds]
      funext q
      show (Function.update w'.adoption p ((w'.adoption p).map _) q).map (Adoption.carried δ)
        = Function.update (w.book δ).expected p (some (δ.convert u v y.m_deleter)) q
      rw [hadoption]
      by_cases hq : q = p
      · rw [hq, Function.update_self, Function.update_self, ha]
        show some (Adoption.carried δ { a with route := a.route ++ [(u, v)] }) = _
        rw [carried_convert, hcarried]
      · rw [Function.update_of_ne hq, Function.update_of_ne hq]
        rfl

theorem ne_of_handles (hh : w.handles h = none) (hy : w.handles o = some y) : h ≠ o := by
  intro hho
  rw [hho, hy] at hh
  exact absurd hh (by simp)

theorem slot_of (hx : w.handles h = some x) {p : Nat} (hp : x.m_ptr = some p) :
    (w.book δ).slot h = some (p, x.m_deleter) := by
  rw [slot_some hx, Handle.holds, hp]
  rfl

/-- A place of the book is a handle. -/
theorem of_slot {p : Nat} {l : D} (hp : (w.book δ).slot h = some (p, l)) :
    ∃ x, w.handles h = some x ∧ x.m_ptr = some p := by
  obtain ⟨x, hx, hholds⟩ := Option.bind_eq_some_iff.mp hp
  obtain ⟨q, hq, hqp⟩ := Option.map_eq_some_iff.mp hholds
  refine ⟨x, hx, ?_⟩
  rw [hq, (Prod.mk.inj hqp).1]

theorem sound_init : Sound (({} : World H K D).book δ) := fun _ =>
  .new rfl (fun _ _ hp => absurd hp (by simp [World.book])) rfl rfl

/-! ## What the book says of the handles -/

/-- The calls of deleters on a pointer. -/
def World.deletionsOf (w : World H K D) (p : Nat) : List (Nat × D) :=
  w.deletions.filter fun e => e.1 == p

/-- What an adopted pointer has come to: it is with a handle, or it was deleted once and by
the deleter it was adopted with, or it was released once and not deleted. -/
def Settled (δ : Deleters K D) (w : World H K D) (p : Nat) (a : Adoption K D) : Prop :=
  ((∃ h x, w.handles h = some x ∧ x.m_ptr = some p) ∧ w.deletionsOf p = []
      ∧ w.released.count p = 0)
    ∨ ((∀ h x, w.handles h = some x → x.m_ptr ≠ some p)
      ∧ w.deletionsOf p = [(p, a.carried δ)] ∧ w.released.count p = 0)
    ∨ ((∀ h x, w.handles h = some x → x.m_ptr ≠ some p) ∧ w.deletionsOf p = []
      ∧ w.released.count p = 1)

/-- The handles own what was adopted. -/
structure Owned (δ : Deleters K D) (w : World H K D) : Prop where
  /-- A pointer is with one handle at most. -/
  once : ∀ h o x y p, w.handles h = some x → w.handles o = some y → x.m_ptr = some p →
    y.m_ptr = some p → h = o
  /-- A handle has only adopted pointers, each with the deleter it was adopted with. -/
  held : ∀ h x p, w.handles h = some x → x.m_ptr = some p →
    ∃ a, w.adoption p = some a ∧ x.m_deleter = a.carried δ
  fate : ∀ p a, w.adoption p = some a → Settled δ w p a
  /-- What was not adopted is neither deleted nor released. -/
  others : ∀ p, w.adoption p = none → w.deletionsOf p = [] ∧ w.released.count p = 0
  /-- Without handles, what was not released was deleted. -/
  no_leak : (∀ h, w.handles h = none) → ∀ p a, w.adoption p = some a → p ∉ w.released →
    w.deletionsOf p = [(p, a.carried δ)]

theorem settled_of_sound (hs : Sound (w.book δ)) {p : Nat} {a : Adoption K D}
    (ha : w.adoption p = some a) : Settled δ w p a := by
  have hcarried : (w.book δ).expected p = some (a.carried δ) := by
    show (w.adoption p).map _ = _
    rw [ha]
    rfl
  cases hs p with
  | new hexp _ _ _ => rw [hexp] at hcarried; exact absurd hcarried (by simp)
  | held h l _ hslot _ hdis hrel =>
      obtain ⟨x, hx⟩ := of_slot hslot
      exact Or.inl ⟨⟨h, x, hx⟩, hdis, hrel⟩
  | disposed l hexp hheld hdis hrel =>
      rw [hexp] at hcarried
      rw [Option.some.inj hcarried] at hdis
      exact Or.inr (Or.inl ⟨fun h x hx hp => hheld h _ (slot_of hx hp), hdis, hrel⟩)
  | released l _ hheld hdis hrel =>
      exact Or.inr (Or.inr ⟨fun h x hx hp => hheld h _ (slot_of hx hp), hdis, hrel⟩)

theorem owned_of_sound (hs : Sound (w.book δ)) : Owned δ w := by
  refine ⟨fun h o x y p hx hy hxp hyp => ?_, fun h x p hx hp => ?_,
    fun p a ha => settled_of_sound hs ha, fun p hp => ?_, fun hnone p a ha hrel => ?_⟩
  · obtain ⟨_, hother, _⟩ := hs.held (slot_of hy hyp)
    exact hother h _ (slot_of hx hxp)
  · obtain ⟨hexp, _⟩ := hs.held (slot_of hx hp)
    obtain ⟨a, ha, hcarried⟩ := Option.map_eq_some_iff.mp hexp
    exact ⟨a, ha, hcarried.symm⟩
  · have hexp' : (w.book δ).expected p = none := by
      show (w.adoption p).map _ = none
      rw [hp]
      rfl
    cases hs p with
    | new _ _ hdis hrel => exact ⟨hdis, hrel⟩
    | held _ _ hexp _ _ _ _ => rw [hexp'] at hexp; exact absurd hexp (by simp)
    | disposed _ hexp _ _ _ => rw [hexp'] at hexp; exact absurd hexp (by simp)
    | released _ hexp _ _ _ => rw [hexp'] at hexp; exact absurd hexp (by simp)
  · rcases settled_of_sound hs ha with ⟨⟨h, x, hx, _⟩, _, _⟩ | ⟨_, hdel, _⟩ | ⟨_, _, hcount⟩
    · rw [hnone h] at hx
      exact absurd hx (by simp)
    · exact hdel
    · rw [List.count_eq_zero_of_not_mem hrel] at hcount
      exact absurd hcount (by decide)

variable [DecidableEq H]

theorem slot_set (h : H) (x : Option (Handle D)) :
    ((w.set h x).book δ).slot = Function.update (w.book δ).slot h (x.bind Handle.holds) := by
  funext c
  show (Function.update w.handles h x c).bind Handle.holds = _
  by_cases hc : c = h
  · rw [hc, Function.update_self, Function.update_self]
  · rw [Function.update_of_ne hc, Function.update_of_ne hc]
    rfl

/-! ## What the operations do to the book -/

/-- **The move constructors carry the object over.** -/
theorem moveCtor_runs (conv : D → D) (hh : w.handles h = none) (hy : w.handles o = some y)
    (hhandles : w'.handles = (w.moveCtor δ h o y conv).handles)
    (hexp : (w'.book δ).expected = (w.book δ).relabel ((w.book δ).slot o) conv)
    (hdel : w'.deletions = w.deletions) (hrel : w'.released = w.released) :
    Runs (w.book δ) (w'.book δ) := by
  have hrun := runs_move (w.book δ) o h conv (slot_none hh)
  have hne := ne_of_handles hh hy
  have hslot : (w'.book δ).slot = ((w.moveCtor δ h o y conv).book δ).slot := by
    funext c
    show (w'.handles c).bind Handle.holds = ((w.moveCtor δ h o y conv).handles c).bind Handle.holds
    rw [hhandles]
  have heq : w'.book δ = { w.book δ with
      slot := Function.update (Function.update (w.book δ).slot o none) h
        (((w.book δ).slot o).map (Prod.map id conv))
      expected := (w.book δ).relabel ((w.book δ).slot o) conv } := by
    refine Book.ext ?_ hexp hdel hrel
    rw [hslot, World.moveCtor, slot_set, slot_set]
    show Function.update
      (Function.update (w.book δ).slot h (Handle.holds ⟨y.m_ptr, conv y.m_deleter⟩)) o none = _
    rw [holds_map, slot_some hy, Function.update_comm hne]
  rw [heq]
  exact hrun

/-- The writes of an assignment, in the order of the code and in that of the book. -/
theorem update_assign {X : Type} {f : H → Option X} (hne : h ≠ o) (a b : Option X) :
    Function.update (Function.update (Function.update (Function.update f o none) h a) h b) o none
      = Function.update (Function.update (Function.update f h none) o none) h b := by
  have hempty : Function.update (Function.update f h none) o none
      = Function.update (Function.update f o none) h none := Function.update_comm hne _ _ f
  rw [Function.update_idem, Function.update_comm hne, Function.update_idem, hempty,
    Function.update_idem]

theorem moveAssign_adoption {conv : D → D} :
    (w.moveAssign δ h o x y conv).adoption = w.adoption := by
  rw [World.moveAssign, World.reset, delete_eq]
  rfl

/-- **The move assignments delete the old object with the old deleter, then carry the other
one over.** -/
theorem moveAssign_runs (conv : D → D) (hne : h ≠ o) (hx : w.handles h = some x)
    (hy : w.handles o = some y) (hhandles : w'.handles = (w.moveAssign δ h o x y conv).handles)
    (hexp : (w'.book δ).expected = (w.book δ).relabel ((w.book δ).slot o) conv)
    (hdel : w'.deletions = (w.moveAssign δ h o x y conv).deletions)
    (hrel : w'.released = (w.moveAssign δ h o x y conv).released) :
    Runs (w.book δ) (w'.book δ) := by
  let k₁ : Book H Nat D := { w.book δ with
    slot := Function.update (w.book δ).slot h none
    disposed := (w.book δ).disposed ++ ((w.book δ).slot h).toList }
  have hdispose : Runs (w.book δ) k₁ := runs_dispose (w.book δ) h
  have hempty : k₁.slot h = none := Function.update_self ..
  have ho : k₁.slot o = (w.book δ).slot o := Function.update_of_ne (Ne.symm hne) ..
  have hmove := runs_move k₁ o h conv hempty
  rw [ho] at hmove
  refine Relation.ReflTransGen.trans hdispose ?_
  have hslot : (w'.book δ).slot = ((w.moveAssign δ h o x y conv).book δ).slot := by
    funext c
    show (w'.handles c).bind Handle.holds
      = ((w.moveAssign δ h o x y conv).handles c).bind Handle.holds
    rw [hhandles]
  have heq : w'.book δ = { k₁ with
      slot := Function.update (Function.update k₁.slot o none) h
        (((w.book δ).slot o).map (Prod.map id conv))
      expected := k₁.relabel ((w.book δ).slot o) conv } := by
    refine Book.ext ?_ hexp ?_ ?_
    · rw [hslot, World.moveAssign, World.reset, delete_eq, slot_set, slot_set]
      show Function.update (Function.update (((w.set o _).set h _).book δ).slot h
        (Handle.holds ⟨y.m_ptr, conv y.m_deleter⟩)) o none = _
      rw [slot_set, slot_set, holds_map, slot_some hy]
      exact update_assign hne _ _
    · show w'.deletions = w.deletions ++ ((w.book δ).slot h).toList
      rw [hdel, World.moveAssign, World.reset, delete_eq, slot_some hx]
      rfl
    · show w'.released = w.released
      rw [hrel, World.moveAssign, World.reset, delete_eq]
      rfl
  rw [heq]
  exact hmove

/-- **A reset disposes of what the handle has, and leaves it with what was passed in.** -/
theorem reset_book (hx : w.handles h = some x) : (w.reset h x ptr).book δ = { w.book δ with
    slot := Function.update (w.book δ).slot h (ptr.map fun p => (p, x.m_deleter))
    disposed := (w.book δ).disposed ++ ((w.book δ).slot h).toList } := by
  refine Book.ext ?_ ?_ ?_ ?_
  · rw [World.reset, delete_eq]
    exact slot_set h _
  · rw [World.reset, delete_eq]
    rfl
  · rw [World.reset, delete_eq, slot_some hx]
    rfl
  · rw [World.reset, delete_eq]
    rfl

theorem reset_null_runs (hx : w.handles h = some x) :
    Runs (w.book δ) ((w.reset h x none).book δ) := by
  rw [reset_book hx]
  exact runs_dispose (w.book δ) h

/-- **An adoption.** -/
theorem adopt_runs (hfresh : w.fresh ptr) (hempty : (w.book δ).slot h = none)
    (hslot : (w'.book δ).slot = Function.update (w.book δ).slot h (ptr.map fun p => (p, d)))
    (hadoption : w'.adoption = w.adoption) (hdel : w'.deletions = w.deletions)
    (hrel : w'.released = w.released) : Runs (w.book δ) ((w'.adopt ptr d).book δ) := by
  cases ptr with
  | none =>
      have heq : w'.book δ = w.book δ := by
        refine Book.ext ?_ (expected_congr hadoption) hdel hrel
        rw [hslot]
        exact Function.update_eq_self_iff.mpr hempty.symm
      show Runs (w.book δ) (w'.book δ)
      rw [heq]
  | some p =>
      have hnew : (w.book δ).expected p = none := by
        show (w.adoption p).map _ = none
        rw [hfresh p rfl]
        rfl
      have heq : (w'.adopt (some p) d).book δ = { w.book δ with
          slot := Function.update (w.book δ).slot h (some (p, d))
          expected := Function.update (w.book δ).expected p (some d) } := by
        refine Book.ext hslot ?_ hdel hrel
        funext q
        show (Function.update w'.adoption p _ q).map _
          = Function.update (w.book δ).expected p (some d) q
        rw [hadoption]
        by_cases hq : q = p
        · rw [hq, Function.update_self, Function.update_self]
          rfl
        · rw [Function.update_of_ne hq, Function.update_of_ne hq]
          rfl
      rw [heq]
      exact .single (.adopt h p d hempty hnew)

theorem reset_fields : (w.reset h x ptr).adoption = w.adoption
    ∧ (w.reset h x ptr).released = w.released := by
  rw [World.reset, delete_eq]
  exact ⟨rfl, rfl⟩

theorem reset_runs (hx : w.handles h = some x) (hfresh : w.fresh ptr) :
    Runs (w.book δ) (((w.reset h x ptr).adopt ptr x.m_deleter).book δ) := by
  have hnull : (w.reset h x none).adoption = w.adoption := reset_fields.1
  refine (reset_null_runs hx).trans (adopt_runs (h := h) ?_ ?_ ?_ ?_ ?_ ?_)
  · unfold World.fresh
    rw [hnull]
    exact hfresh
  · rw [reset_book hx]
    exact Function.update_self ..
  · rw [reset_book hx, reset_book hx]
    exact (Function.update_idem ..).symm
  · rw [hnull]
    exact reset_fields.1
  · rw [World.reset, World.reset, delete_eq, delete_eq]
    rfl
  · rw [reset_fields.2, reset_fields.2]

theorem release_runs (hx : w.handles h = some x) :
    Runs (w.book δ) (({ w.set h (some { x with m_ptr := none }) with
      released := w.released ++ x.m_ptr.toList } : World H K D).book δ) := by
  have hrun := runs_release (w.book δ) h
  have heq : (({ w.set h (some { x with m_ptr := none }) with
      released := w.released ++ x.m_ptr.toList } : World H K D).book δ) = { w.book δ with
      slot := Function.update (w.book δ).slot h none
      released := (w.book δ).released ++ (((w.book δ).slot h).map Prod.fst).toList } := by
    refine Book.ext (slot_set h _) rfl rfl ?_
    show w.released ++ x.m_ptr.toList = w.released ++ (((w.book δ).slot h).map Prod.fst).toList
    rw [slot_some hx, Handle.holds, Option.map_map]
    congr 1
    cases x.m_ptr <;> rfl
  rw [heq]
  exact hrun

theorem swap_runs (hx : w.handles h = some x) (hy : w.handles o = some y) :
    Runs (w.book δ) (((w.set h (some y)).set o (some x)).book δ) := by
  have heq : ((w.set h (some y)).set o (some x)).book δ
      = { w.book δ with slot := (w.book δ).slot ∘ Equiv.swap h o } := by
    refine Book.ext ?_ rfl rfl rfl
    rw [slot_set, slot_set]
    funext c
    show _ = (w.book δ).slot (Equiv.swap h o c)
    rw [Equiv.swap_apply_def]
    by_cases hco : c = o
    · rw [hco, Function.update_self]
      by_cases hoh : o = h
      · have hxy : x = y := by
          rw [hoh, hx] at hy
          exact Option.some.inj hy
        rw [if_pos hoh, slot_some hy, hxy]
        rfl
      · rw [if_neg hoh, if_pos rfl, slot_some hx]
        rfl
    · rw [Function.update_of_ne hco, if_neg hco]
      by_cases hch : c = h
      · rw [hch, Function.update_self, if_pos rfl, slot_some hy]
        rfl
      · rw [Function.update_of_ne hch, if_neg hch]
  rw [heq]
  exact .single (.swap h o)

variable [DecidableEq K]

/-- **Every operation is a few entries in the book.** -/
theorem step_runs {op : Op H D} (hs : Sound (w.book δ)) (hstep : step δ kind w op = some w') :
    Runs (w.book δ) (w'.book δ) := by
  cases op with
  | ctor h =>
      rw [step] at hstep
      split at hstep
      · rename_i hh
        injection hstep with hstep
        rw [← hstep]
        -- an empty handle adopts nothing
        have hnull : w.fresh none := fun p hp => absurd hp (by simp)
        show Runs _
          (((w.set h (some ⟨none, δ.default (kind h)⟩)).adopt none (δ.default (kind h))).book δ)
        exact adopt_runs hnull (slot_none hh) (slot_set h _) rfl rfl rfl
      · exact absurd hstep (by simp)
  | ctorPtr h ptr =>
      rw [step] at hstep
      split at hstep
      · rename_i hh
        obtain ⟨hfresh, rfl⟩ := Transition.of_guard hstep
        exact adopt_runs hfresh (slot_none hh) (slot_set h _) rfl rfl rfl
      · exact absurd hstep (by simp)
  | ctorDeleter h ptr del =>
      rw [step] at hstep
      split at hstep
      · rename_i hh
        obtain ⟨hfresh, rfl⟩ := Transition.of_guard hstep
        exact adopt_runs hfresh (slot_none hh) (slot_set h _) rfl rfl rfl
      · exact absurd hstep (by simp)
  | moveCtor h o =>
      rw [step] at hstep
      split at hstep
      · rename_i y hh hy
        obtain ⟨_, rfl⟩ := Transition.of_guard hstep
        exact moveCtor_runs id hh hy rfl (hs.relabel_id o).symm rfl rfl
      · exact absurd hstep (by simp)
  | convertCtor h o =>
      rw [step] at hstep
      split at hstep
      · rename_i y hh hy
        obtain ⟨_, rfl⟩ := Transition.of_guard hstep
        obtain ⟨hhandles, hdel, hrel⟩ := convert_fields
          (w.moveCtor δ h o y (δ.convert (kind o) (kind h))) y.m_ptr (kind o) (kind h)
        exact moveCtor_runs _ hh hy hhandles (expected_convert hs hy rfl) hdel hrel
      · exact absurd hstep (by simp)
  | moveAssign h o =>
      rw [step] at hstep
      split at hstep
      · rename_i x y hx hy
        obtain ⟨_, rfl⟩ := Transition.of_guard hstep
        split
        · rename_i hne
          refine moveAssign_runs id hne hx hy rfl ?_ rfl rfl
          rw [hs.relabel_id o]
          exact expected_congr moveAssign_adoption
        · exact .refl
      · exact absurd hstep (by simp)
  | convertAssign h o =>
      rw [step] at hstep
      split at hstep
      · rename_i x y hx hy
        obtain ⟨hkind, rfl⟩ := Transition.of_guard hstep
        -- of different kinds, so two handles
        have hne : h ≠ o := fun hho => hkind (by rw [hho])
        obtain ⟨hhandles, hdel, hrel⟩ := convert_fields
          (w.moveAssign δ h o x y (δ.convert (kind o) (kind h))) y.m_ptr (kind o) (kind h)
        exact moveAssign_runs _ hne hx hy hhandles (expected_convert hs hy moveAssign_adoption)
          hdel hrel
      · exact absurd hstep (by simp)
  | assignNull h =>
      obtain ⟨x, hx, rfl⟩ := Option.map_eq_some_iff.mp hstep
      exact reset_null_runs hx
  | reset h ptr =>
      rw [step] at hstep
      split at hstep
      · rename_i x hx
        obtain ⟨hfresh, rfl⟩ := Transition.of_guard hstep
        exact reset_runs hx hfresh
      · exact absurd hstep (by simp)
  | release h =>
      obtain ⟨x, hx, rfl⟩ := Option.map_eq_some_iff.mp hstep
      exact release_runs hx
  | swap h o =>
      rw [step] at hstep
      split at hstep
      · rename_i x y hx hy
        obtain ⟨_, rfl⟩ := Transition.of_guard hstep
        exact swap_runs hx hy
      · exact absurd hstep (by simp)
  | dtor h =>
      obtain ⟨x, hx, rfl⟩ := Option.map_eq_some_iff.mp hstep
      have heq : ((w.reset h x none).set h none).book δ = (w.reset h x none).book δ := by
        refine Book.ext ?_ rfl rfl rfl
        rw [slot_set, reset_book hx]
        exact Function.update_idem ..
      rw [heq]
      exact reset_null_runs hx

/-! ## Runs -/

theorem sound_reachable (h : Reachable δ kind w) : Sound (w.book δ) :=
  h.invariant (I := fun w => Sound (w.book δ)) sound_init
    fun _ _ _ _ hs hstep => sound_runs hs (step_runs hs hstep)

/--
**Every object is owned once, and deleted once by its own deleter.**

Whatever the deleter types do, after any sequence of operations on any handles.
-/
theorem unique_ptr_owned (δ : Deleters K D) (kind : H → K) (w : World H K D)
    (h : Reachable δ kind w) : Owned δ w := owned_of_sound (sound_reachable h)

/-- Two handles with deleters of their own: an assignment deletes the old object with the old
deleter, and the other object ends with the deleter that came with it. -/
theorem unique_ptr_owned_two :
    Owned ⟨fun _ => 0, fun _ _ d => d, fun d => d⟩
      ((Transition.exec (step ⟨fun _ => 0, fun _ _ d => d, fun d => d⟩ fun _ => ())
        ({} : World (Fin 2) Unit Nat)
        [.ctorDeleter 0 (some 5) 1, .ctorDeleter 1 (some 6) 2, .moveAssign 0 1, .reset 1 (some 7),
          .release 1, .dtor 1, .dtor 0]).get (by decide)) :=
  unique_ptr_owned _ (fun _ => ()) _ (Transition.exec_reach _ (Option.some_get _).symm)

/-! ## The calls -/

/-- The raw pointer that an operation is given, unless it is null. -/
def Op.pointer : Op H D → List Nat
  | .ctorPtr _ ptr | .ctorDeleter _ ptr _ | .reset _ ptr => ptr.toList
  | _ => []

/-- What an operation that was given these pointers does to the record. -/
inductive Records (w w' : World H K D) : List Nat → Prop where
  | same (hsame : w'.adoption = w.adoption) : Records w w' []
  | converts (ptr : Option Nat) (u v : K) (hconvert : w'.adoption = (w.convert ptr u v).adoption) :
      Records w w' []
  /-- The handle has the pointer then, and the deleter that is recorded. -/
  | adopts (h : H) (ptr : Option Nat) (d : D) (hfresh : w.fresh ptr)
      (hh : w'.handles h = some ⟨ptr, d⟩) (hadopt : w'.adoption = (w.adopt ptr d).adoption) :
      Records w w' ptr.toList

omit [DecidableEq H] [DecidableEq K] in
theorem adopt_congr (h : w'.adoption = w.adoption) :
    (w'.adopt ptr d).adoption = (w.adopt ptr d).adoption := by
  cases ptr with
  | none => exact h
  | some p => exact congrArg (Function.update · p _) h

theorem step_records {op : Op H D} (hstep : step δ kind w op = some w') :
    Records w w' op.pointer := by
  cases op with
  | ctor h =>
      rw [step] at hstep
      split at hstep
      · injection hstep with hstep
        rw [← hstep]
        exact .same rfl
      · exact absurd hstep (by simp)
  | ctorPtr h ptr | ctorDeleter h ptr del =>
      rw [step] at hstep
      split at hstep
      · obtain ⟨hfresh, rfl⟩ := Transition.of_guard hstep
        refine .adopts h ptr _ hfresh ?_ (adopt_congr rfl)
        cases ptr <;> exact Function.update_self ..
      · exact absurd hstep (by simp)
  | moveCtor h o | swap h o =>
      rw [step] at hstep
      split at hstep
      · obtain ⟨_, rfl⟩ := Transition.of_guard hstep
        exact .same rfl
      · exact absurd hstep (by simp)
  | convertCtor h o =>
      rw [step] at hstep
      split at hstep
      · rename_i y hh hy
        obtain ⟨_, rfl⟩ := Transition.of_guard hstep
        refine .converts y.m_ptr (kind o) (kind h) ?_
        cases y.m_ptr <;> rfl
      · exact absurd hstep (by simp)
  | moveAssign h o =>
      rw [step] at hstep
      split at hstep
      · obtain ⟨_, rfl⟩ := Transition.of_guard hstep
        split
        · exact .same moveAssign_adoption
        · exact .same rfl
      · exact absurd hstep (by simp)
  | convertAssign h o =>
      rw [step] at hstep
      split at hstep
      · rename_i x y hx hy
        obtain ⟨_, rfl⟩ := Transition.of_guard hstep
        refine .converts y.m_ptr (kind o) (kind h) ?_
        cases hptr : y.m_ptr with
        | none => exact moveAssign_adoption
        | some p =>
            simp only [World.convert]
            rw [moveAssign_adoption]
      · exact absurd hstep (by simp)
  | assignNull h =>
      obtain ⟨x, _, rfl⟩ := Option.map_eq_some_iff.mp hstep
      exact .same reset_fields.1
  | reset h ptr =>
      rw [step] at hstep
      split at hstep
      · rename_i x hx
        obtain ⟨hfresh, rfl⟩ := Transition.of_guard hstep
        refine .adopts h ptr x.m_deleter hfresh ?_ (adopt_congr reset_fields.1)
        have hh : (w.reset h x ptr).handles h = some ⟨ptr, x.m_deleter⟩ := by
          rw [World.reset, delete_eq]
          exact Function.update_self ..
        cases ptr <;> exact hh
      · exact absurd hstep (by simp)
  | release h =>
      obtain ⟨x, _, rfl⟩ := Option.map_eq_some_iff.mp hstep
      exact .same rfl
  | dtor h =>
      obtain ⟨x, _, rfl⟩ := Option.map_eq_some_iff.mp hstep
      exact .same reset_fields.1

section Records

variable {l : List Nat} {p : Nat} {c : Adoption K D}

omit [DecidableEq H] [DecidableEq K] in
theorem adopt_record :
    (w.adopt ptr d).adoption p = if ptr = some p then some { deleter := d } else w.adoption p := by
  cases ptr with
  | none => rfl
  | some q =>
      by_cases hq : q = p
      · subst hq
        rw [if_pos rfl]
        exact Function.update_self ..
      · rw [if_neg fun heq => hq (Option.some.inj heq)]
        exact Function.update_of_ne (fun heq => hq heq.symm) ..

omit [DecidableEq H] [DecidableEq K] in
theorem convert_record : (w.convert ptr u v).adoption p
    = if ptr = some p then (w.adoption p).map fun a => { a with route := a.route ++ [(u, v)] }
      else w.adoption p := by
  cases ptr with
  | none => rfl
  | some q =>
      by_cases hq : q = p
      · subst hq
        rw [if_pos rfl]
        exact Function.update_self ..
      · rw [if_neg fun heq => hq (Option.some.inj heq)]
        exact Function.update_of_ne (fun heq => hq heq.symm) ..

omit [DecidableEq H] [DecidableEq K] in
/-- A pointer is on record if it was before, or was given. -/
theorem Records.known (h : Records w w' l) :
    w'.adoption p ≠ none ↔ w.adoption p ≠ none ∨ p ∈ l := by
  cases h with
  | same hsame => simp [hsame]
  | converts ptr u v hconvert =>
      rw [hconvert, convert_record]
      split <;> simp
  | adopts h ptr d hfresh hh hadopt =>
      rw [hadopt, adopt_record]
      split
      · rename_i heq
        simp [heq]
      · rename_i hne
        simp [hne]

omit [DecidableEq H] [DecidableEq K] in
theorem Records.nodup (h : Records w w' l) : l.Nodup := by
  cases h with
  | same _ | converts _ _ _ _ => exact List.nodup_nil
  | adopts h ptr d _ _ _ => cases ptr <;> simp

omit [DecidableEq H] [DecidableEq K] in
theorem Records.fresh (h : Records w w' l) (hp : p ∈ l) : w.adoption p = none := by
  cases h with
  | same _ | converts _ _ _ _ => exact absurd hp List.not_mem_nil
  | adopts h ptr d hfresh hh hadopt => exact hfresh p (Option.mem_toList.mp hp)

omit [DecidableEq H] [DecidableEq K] in
/-- What is given is recorded with the deleter that its handle has. -/
theorem Records.taken (h : Records w w' l) (hp : p ∈ l) :
    ∃ h d, w'.handles h = some ⟨some p, d⟩ ∧ w'.adoption p = some { deleter := d } := by
  cases h with
  | same _ | converts _ _ _ _ => exact absurd hp List.not_mem_nil
  | adopts h ptr d hfresh hh hadopt =>
      obtain rfl : ptr = some p := Option.mem_toList.mp hp
      exact ⟨h, d, hh, by rw [hadopt, adopt_record, if_pos rfl]⟩

omit [DecidableEq H] [DecidableEq K] in
/-- Only the conversions are added to what is on record. -/
theorem Records.kept (h : Records w w' l) (hp : w.adoption p = some c) :
    ∃ route, w'.adoption p = some { deleter := c.deleter, route := route } := by
  cases h with
  | same hsame => exact ⟨c.route, by rw [hsame, hp]⟩
  | converts ptr u v hconvert =>
      rw [hconvert, convert_record, hp]
      split
      · exact ⟨_, rfl⟩
      · exact ⟨_, rfl⟩
  | adopts h ptr d hfresh hh hadopt =>
      have hne : ptr ≠ some p := by
        intro heq
        rw [hfresh p heq] at hp
        exact absurd hp (by simp)
      rw [hadopt, adopt_record, if_neg hne]
      exact ⟨_, hp⟩

/-- **What was adopted** are the pointers that the operations of a run were given, each once. -/
theorem adopted_pointers (as : List (Op H D)) (w : World H K D)
    (hrun : Transition.exec (step δ kind) {} as = some w) :
    (∀ p, w.adoption p ≠ none ↔ p ∈ as.flatMap Op.pointer) ∧ (as.flatMap Op.pointer).Nodup := by
  refine Transition.exec_trace (I := fun as w =>
    (∀ p, w.adoption p ≠ none ↔ p ∈ as.flatMap Op.pointer) ∧ (as.flatMap Op.pointer).Nodup)
    ⟨fun p => ?_, List.nodup_nil⟩ ?_ as hrun
  · exact iff_of_false (fun hne => hne rfl) List.not_mem_nil
  · rintro as w a w' ⟨hknown, hnodup⟩ hs
    have hrec := step_records hs
    rw [List.flatMap_append, List.flatMap_singleton]
    refine ⟨fun p => ?_, ?_⟩
    · rw [hrec.known, hknown p, List.mem_append]
    · refine List.nodup_append.mpr ⟨hnodup, hrec.nodup, fun p hp q hq heq => ?_⟩
      exact (hknown p).mpr hp (heq ▸ hrec.fresh hq)

/-- **The deleter on record** is the one that the handle had when it was given the pointer. -/
theorem adopted_deleter (a : Op H D) (as : List (Op H D)) (w w' w'' : World H K D)
    (hs : step δ kind w a = some w') (hafter : Transition.exec (step δ kind) w' as = some w'')
    (hp : p ∈ a.pointer) :
    ∃ h d, w'.handles h = some ⟨some p, d⟩
      ∧ ∃ route, w''.adoption p = some { deleter := d, route := route } := by
  obtain ⟨h, d, hh, hrecord⟩ := (step_records hs).taken hp
  refine ⟨h, d, hh, (Transition.exec_reach as hafter).invariant
    (I := fun w => ∃ route, w.adoption p = some { deleter := d, route := route })
    ⟨[], hrecord⟩ ?_⟩
  rintro s b s' _ ⟨route, hroute⟩ hstep
  exact (step_records hstep).kept hroute

end Records

end QuickStructs.UniquePtr
