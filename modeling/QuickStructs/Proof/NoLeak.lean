import QuickStructs.Lib.Transition
import QuickStructs.Proof.LinkedAssign

/-!
# Without cycles nothing is leaked

A node goes with its control block, and a control block with the last handle that refers to it.
So whatever a program does with its handles, each block that is there is referred to from
somewhere: by a variable, or by the field of a node, which has a block of its own. Followed
backwards this leads to a variable, unless it leads round in a circle. A program that closes no
circle, and does not destroy the source of an assignment by the assignment, has nothing left when
it has no handles left.
-/

namespace QuickStructs.LinkedPtr

open Lib

variable {V A B : Type}
variable {m m' m₁ m₂ : Memory V A B} {E : Finset A} {v : V} {l h other : Place V A}
variable {a a' : A} {b b' : B} {c c' : ControlBlock A} {x y : Handle A B}

/-! ## A node goes with its block -/

/-- Blocks only go, and keep what they manage. -/
def Objects (m m' : Memory V A B) : Prop :=
  ∀ b c', m'.blocks b = some c' → ∃ c, m.blocks b = some c ∧ c.p_obj = c'.p_obj

/-- Every node has a block, but for those of `E`. -/
def Tied (m : Memory V A B) (E : Finset A) : Prop :=
  ∀ a, a ∉ E → m.nodes a ≠ none → ∃ b c, m.blocks b = some c ∧ c.p_obj = some a

theorem Objects.refl (m : Memory V A B) : Objects m m := by
  intro b c hc
  exact ⟨c, hc, rfl⟩

theorem Objects.trans (h₁ : Objects m m₁) (h₂ : Objects m₁ m₂) : Objects m m₂ := by
  intro b c₂ hc₂
  obtain ⟨c₁, hc₁, hobj₂⟩ := h₂ b c₂ hc₂
  obtain ⟨c, hc, hobj₁⟩ := h₁ b c₁ hc₁
  exact ⟨c, hc, hobj₁.trans hobj₂⟩

/-- No block has gone, and no node has come. -/
theorem Tied.congr (h : Tied m E)
    (hblocks : ∀ b c, m.blocks b = some c → ∃ c', m'.blocks b = some c' ∧ c'.p_obj = c.p_obj)
    (hnodes : ∀ a, m'.nodes a ≠ none → m.nodes a ≠ none) : Tied m' E := by
  intro a ha hnode
  obtain ⟨b, c, hc, hobj⟩ := h a ha (hnodes a hnode)
  obtain ⟨c', hc', hobj'⟩ := hblocks b c hc
  exact ⟨b, c', hc', hobj'.trans hobj⟩

/-- A variable that is null for now is not the source. -/
theorem get_fresh [DecidableEq V] (hv : m.vars v = none) (hy : m.get other = some y) :
    (m.setVar v (some {})).get other = some y ∧ Place.var v ≠ other := by
  have hne : Place.var v ≠ other := by
    rintro rfl
    exact absurd (hv.symm.trans hy) (by simp)
  refine ⟨?_, hne⟩
  cases other with
  | var u =>
      exact (Function.update_of_ne (fun huv => hne (congrArg Place.var huv.symm)) ..).trans hy
  | next a => exact hy

section Blocks

variable [DecidableEq B]

/-- The count of a block is of no concern. -/
theorem recount_ties (hb : m.blocks b = some c) (n : Nat) :
    Objects m (m.setBlock b (some { c with m_count := n }))
      ∧ ∀ E, Tied m E → Tied (m.setBlock b (some { c with m_count := n })) E := by
  constructor
  · intro b' c' hc'
    have hupdate : Function.update m.blocks b (some { c with m_count := n }) b' = some c' := hc'
    by_cases hbb : b' = b
    · subst hbb
      rw [Function.update_self, Option.some.injEq] at hupdate
      exact ⟨c, hb, by rw [← hupdate]⟩
    · rw [Function.update_of_ne hbb] at hupdate
      exact ⟨c', hupdate, rfl⟩
  · intro E ht
    refine ht.congr ?_ fun a ha => ha
    intro b' c' hc'
    by_cases hbb : b' = b
    · subst hbb
      rw [hb, Option.some.injEq] at hc'
      exact ⟨_, Function.update_self .., by rw [hc']⟩
    · exact ⟨c', (Function.update_of_ne hbb ..).trans hc', rfl⟩

/-- **A block may go when its node has gone.** -/
theorem freeBlock_ties (hobj : Objects m₁ m₂) (hb : m₁.blocks b = some c)
    (hgone : ∀ a, c.p_obj = some a → m₂.nodes a = none) :
    Objects m₁ (m₂.freeBlock b) ∧ ∀ E, Tied m₂ E → Tied (m₂.freeBlock b) E := by
  unfold Memory.freeBlock
  cases hb₂ : m₂.blocks b with
  | none => exact ⟨hobj, fun E ht => ht⟩
  | some c₂ =>
      constructor
      · intro b' c' hc'
        have hupdate : Function.update m₂.blocks b none b' = some c' := hc'
        by_cases hbb : b' = b
        · subst hbb
          rw [Function.update_self] at hupdate
          exact absurd hupdate (by simp)
        · rw [Function.update_of_ne hbb] at hupdate
          exact hobj b' c' hupdate
      · intro E ht a ha hnode
        obtain ⟨b', c', hc', hobj'⟩ := ht a ha hnode
        have hbb : b' ≠ b := by
          rintro rfl
          obtain ⟨c₁, hc₁, hsame⟩ := hobj b' c' hc'
          rw [hb, Option.some.injEq] at hc₁
          subst hc₁
          exact hnode (hgone a (hsame.trans hobj'))
        exact ⟨b', c', (Function.update_of_ne hbb ..).trans hc', hobj'⟩

theorem tied_addRef (h : Tied m ∅) (b : B) : Tied (m.addRef b) ∅ := by
  unfold Memory.addRef
  split
  · rename_i c hc
    exact (recount_ties hc _).2 ∅ h
  · exact h

theorem tied_copyCtor [DecidableEq V] (h : Tied m ∅) (v : V) (other : Place V A) :
    Tied (m.copyCtor v other) ∅ := by
  unfold Memory.copyCtor
  split
  · exact h
  · dsimp only
    split
    · exact tied_addRef (m := m.setVar v _) h _
    · exact h

end Blocks

section Nodes

variable [DecidableEq A]

/-- A node that goes need not have a block any more. -/
theorem Tied.setNode (h : Tied m (insert a E)) : Tied (m.setNode a none) E := by
  intro a' ha' hnode
  have hupdate : Function.update m.nodes a none a' ≠ none := hnode
  by_cases haa : a' = a
  · rw [haa, Function.update_self] at hupdate
    exact absurd rfl hupdate
  · rw [Function.update_of_ne haa] at hupdate
    refine h a' ?_ hupdate
    rw [Finset.mem_insert, not_or]
    exact ⟨haa, ha'⟩

theorem Tied.insert (h : Tied m E) (a : A) : Tied m (insert a E) := by
  intro a' ha'
  rw [Finset.mem_insert, not_or] at ha'
  exact h a' ha'.2

/-- The deletion of a node, whose field releases a reference. -/
theorem deleteNode_ties {release : Memory V A B → B → Memory V A B}
    (hrel : ∀ m b, Objects m (release m b) ∧ ∀ E, Tied m E → Tied (release m b) E)
    (m : Memory V A B) (a : A) :
    Objects m (m.deleteNode release a) ∧ ∀ E, Tied m E → Tied (m.deleteNode release a) E := by
  unfold Memory.deleteNode
  cases m.nodes a with
  | none => exact ⟨Objects.refl m, fun E ht => ht⟩
  | some x =>
      dsimp only
      cases x.p_cb with
      | none => exact ⟨Objects.refl m, fun E ht => (ht.insert a).setNode⟩
      | some b =>
          obtain ⟨hobj, hkeeps⟩ := hrel m b
          exact ⟨hobj, fun E ht => (hkeeps _ (ht.insert a)).setNode⟩

variable [DecidableEq V]

theorem tied_set (h : Tied m ∅) (l : Place V A) (y : Handle A B) : Tied (m.set l y) ∅ := by
  unfold Memory.set
  split
  · exact h
  · rename_i x hx
    cases l with
    | var v => exact h
    | next a =>
        refine h.congr (fun b c hc => ⟨c, hc, rfl⟩) ?_
        intro a' ha'
        by_cases haa : a' = a
        · have hnode : m.nodes a = some x := hx
          rw [haa, hnode]
          exact Option.some_ne_none x
        · have hupdate : Function.update m.nodes a (some y) a' ≠ none := ha'
          rw [Function.update_of_ne haa] at hupdate
          exact hupdate

theorem tied_moveCtor (h : Tied m ∅) (v : V) (other : Place V A) : Tied (m.moveCtor v other) ∅ := by
  unfold Memory.moveCtor
  split
  · exact h
  · exact tied_set (m := m.setVar v _) h other _

theorem setVar_set (m : Memory V A B) (v : V) (y : Handle A B) :
    (m.setVar v (some {})).set (.var v) y = m.setVar v (some y) := by
  have hnull : (m.setVar v (some {})).get (.var v) = some {} := Function.update_self ..
  unfold Memory.set
  simp only [hnull]
  simp only [Memory.setVar, Function.update_idem]

end Nodes

/-! ## Operations -/

section Operations

variable [DecidableEq A] [DecidableEq B]

/-- **A release deletes a node if and only if it frees its block**, however far it goes. -/
theorem releaseIn_ties (k : Nat) (m : Memory V A B) (b : B) :
    Objects m (m.releaseIn k b) ∧ ∀ E, Tied m E → Tied (m.releaseIn k b) E := by
  induction k generalizing m b with
  | zero => exact ⟨Objects.refl m, fun E ht => ht⟩
  | succ k ih =>
      rw [Memory.releaseIn]
      cases hb : m.blocks b with
      | none => exact ⟨Objects.refl m, fun E ht => ht⟩
      | some c =>
          obtain ⟨hobj₁, htied₁⟩ := recount_ties hb (c.m_count - 1)
          have hself : (m.setBlock b (some { c with m_count := c.m_count - 1 })).blocks b
              = some { c with m_count := c.m_count - 1 } := Function.update_self ..
          dsimp only
          generalize m.setBlock b (some { c with m_count := c.m_count - 1 }) = m₁ at *
          by_cases hone : c.m_count = 1
          · rw [if_pos hone]
            cases hobj : c.p_obj with
            | none =>
                obtain ⟨hfree, hkeeps⟩ := freeBlock_ties (Objects.refl m₁) hself fun a ha =>
                  absurd (hobj.symm.trans ha) (by simp)
                exact ⟨hobj₁.trans hfree, fun E ht => hkeeps E (htied₁ E ht)⟩
            | some a =>
                obtain ⟨hdelete, htied₂⟩ := deleteNode_ties ih m₁ a
                obtain ⟨hfree, hkeeps⟩ := freeBlock_ties hdelete hself fun a' ha' => by
                  obtain rfl : a = a' := Option.some.inj (hobj.symm.trans ha')
                  exact nodes_deleteNode ..
                exact ⟨hobj₁.trans hfree, fun E ht => hkeeps E (htied₂ E (htied₁ E ht))⟩
          · rw [if_neg hone]
            exact ⟨hobj₁, htied₁⟩

theorem tied_release [Fintype B] (h : Tied m ∅) (x : Handle A B) : Tied (m.release x) ∅ := by
  unfold Memory.release
  split
  · exact (releaseIn_ties _ m _).2 ∅ h
  · exact h

variable [DecidableEq V]

theorem create_var (m : Memory V A B) (v : V) (a : A) (b : B) :
    (m.create v a b).get (.var v) = some ⟨some a, some b⟩ := Function.update_self ..

theorem create_node (m : Memory V A B) (v : V) (a : A) (b : B) :
    (m.create v a b).nodes a = some {} := Function.update_self ..

/-- The other handles are as they were. -/
theorem create_get (hl : l ≠ .var v) (hl' : l ≠ .next a) :
    (m.create v a b).get l = m.get l := by
  cases l with
  | var u => exact Function.update_of_ne (fun huv => hl (congrArg Place.var huv)) ..
  | next a' => exact Function.update_of_ne (fun haa => hl' (congrArg Place.next haa)) ..

/-- The field of the new node refers to no block. -/
theorem create_p_cb (ha : m.nodes a = none) (hl : l ≠ .var v) :
    (m.create v a b).p_cb l = m.p_cb l := by
  by_cases hl' : l = .next a
  · have hnone : m.get (.next a) = none := ha
    have hnull : (m.create v a b).get (.next a) = some {} := create_node m v a b
    rw [hl', Memory.p_cb, Memory.p_cb, hnone, hnull]
    rfl
  · rw [Memory.p_cb, create_get hl hl']
    rfl

/-- A block is the new one, or one that was there. -/
theorem create_blocks (hc : (m.create v a b).blocks b' = some c) :
    (b' = b ∧ c = ⟨1, some a⟩) ∨ (b' ≠ b ∧ m.blocks b' = some c) := by
  have hupdate : Function.update m.blocks b (some ⟨1, some a⟩) b' = some c := hc
  by_cases hbb : b' = b
  · rw [hbb, Function.update_self, Option.some.injEq] at hupdate
    exact .inl ⟨hbb, hupdate.symm⟩
  · rw [Function.update_of_ne hbb] at hupdate
    exact .inr ⟨hbb, hupdate⟩

/-- The blocks that were there are kept. -/
theorem create_keeps (hb : m.blocks b = none) (hc : m.blocks b' = some c) :
    (m.create v a b).blocks b' = some c := by
  have hbb : b' ≠ b := by
    rintro rfl
    rw [hb] at hc
    exact absurd hc (by simp)
  exact (Function.update_of_ne hbb ..).trans hc

theorem tied_create (h : Tied m ∅) (hb : m.blocks b = none) (v : V) (a : A) :
    Tied (m.create v a b) ∅ := by
  intro a' ha' hnode
  by_cases haa : a' = a
  · exact ⟨b, _, Function.update_self .., by rw [haa]⟩
  · have hupdate : Function.update m.nodes a (some {}) a' ≠ none := hnode
    rw [Function.update_of_ne haa] at hupdate
    obtain ⟨b', c, hc, hobj⟩ := h a' ha' hupdate
    exact ⟨b', c, create_keeps hb hc, hobj⟩

variable [Fintype B]

theorem tied_reset (h : Tied m ∅) (l : Place V A) : Tied (m.reset l) ∅ := by
  unfold Memory.reset
  split
  · exact tied_set (tied_release h _) l _
  · exact h

theorem tied_copyAssign (ht : Tied m ∅) (h other : Place V A) : Tied (m.copyAssign h other) ∅ := by
  unfold Memory.copyAssign
  split
  · split
    · exact ht
    · rename_i x _
      dsimp only
      split
      · exact tied_release ht x
      · split
        · exact tied_addRef (tied_set (tied_release ht x) h _) _
        · exact tied_set (tied_release ht x) h _
  · exact ht

theorem tied_moveAssign (ht : Tied m ∅) (h other : Place V A) : Tied (m.moveAssign h other) ∅ := by
  unfold Memory.moveAssign
  split
  · split
    · exact ht
    · rename_i x _
      dsimp only
      split
      · exact tied_release ht x
      · exact tied_set (tied_set (tied_release ht x) h _) other _
  · exact ht

/-- Constructed from a handle, as if it was null first and then assigned. -/
theorem copyCtor_eq (hv : m.vars v = none) (hy : m.get other = some y) :
    m.copyCtor v other = (m.setVar v (some {})).copyAssign (.var v) other := by
  obtain ⟨hget, hne⟩ := get_fresh hv hy
  have hnull : (m.setVar v (some {})).get (.var v) = some {} := Function.update_self ..
  unfold Memory.copyCtor Memory.copyAssign
  simp only [hy, if_pos hne, hnull, Memory.release, hget, setVar_set]

theorem moveCtor_eq (hv : m.vars v = none) (hy : m.get other = some y) :
    m.moveCtor v other = (m.setVar v (some {})).moveAssign (.var v) other := by
  obtain ⟨hget, hne⟩ := get_fresh hv hy
  have hnull : (m.setVar v (some {})).get (.var v) = some {} := Function.update_self ..
  unfold Memory.moveCtor Memory.moveAssign
  simp only [hy, if_pos hne, hnull, Memory.release, hget, setVar_set]

/-- The source of an assignment is still there when the target has let go of what it had. -/
def Memory.SourceStays (m : Memory V A B) (h other : Place V A) : Prop :=
  h ≠ other → ∀ x, m.get h = some x → (m.release x).get other ≠ none

/-- An assignment closes no cycle, and does not destroy its source. -/
def Careful (m : Memory V A B) : Op V A B → Prop
  | .copyAssign h other =>
    m.SourceStays h other ∧ ∀ a, ¬Relation.TransGen (m.copyAssign h other).Links a a
  | .moveAssign h other =>
    m.SourceStays h other ∧ ∀ a, ¬Relation.TransGen (m.moveAssign h other).Links a a
  | _ => True

/-- The states of careful programs. -/
abbrev Reachable (m : Memory V A B) : Prop :=
  Transition.Reach (Transition.When Careful (Transition.Of step)) Memory.empty m

theorem reach_create (hr : Reachable m)
    (hfree : m.vars v = none ∧ m.nodes a = none ∧ m.blocks b = none) :
    Reachable (m.create v a b) := by
  refine hr.tail (a := .create v a b) ⟨trivial, ?_⟩
  rw [Transition.Of, step, if_pos hfree]

theorem reach_copyAssign (hr : Reachable m) (halive : m.get h ≠ none ∧ m.get other ≠ none)
    (hc : Careful m (.copyAssign h other)) : Reachable (m.copyAssign h other) := by
  refine hr.tail ⟨hc, ?_⟩
  rw [Transition.Of, step, if_pos halive]

theorem reach_dtor (hr : Reachable m) (hv : m.vars v ≠ none) : Reachable (m.dtor v) := by
  refine hr.tail (a := .dtor v) ⟨trivial, ?_⟩
  rw [Transition.Of, step, if_pos hv]

end Operations

/-! ## Back to the variables -/

section Held

variable [DecidableEq B] [Fintype V] [Fintype A]

/-- No handle refers to a block that is not there. -/
theorem Memory.WellFormed.no_handle (hm : m.WellFormed) (hb : m.blocks b = none) (l : Place V A) :
    m.p_cb l ≠ some b := by
  intro hcb
  obtain ⟨x, hx, hxb⟩ := Option.bind_eq_some_iff.mp hcb
  rcases hm.handles l x hx with ⟨hnull, _⟩ | ⟨b', c, hb', hc, _⟩
  · rw [hnull] at hxb
    exact absurd hxb (by simp)
  · obtain rfl : b' = b := Option.some.inj (hb'.symm.trans hxb)
    rw [hb] at hc
    exact absurd hc (by simp)

/-- No block that was there manages a node that was not. -/
theorem Memory.WellFormed.no_block (hm : m.WellFormed) (ha : m.nodes a = none)
    (hc : m.blocks b = some c) : c.p_obj ≠ some a := by
  intro hobj
  obtain ⟨x, hx⟩ := hm.nodes b c a hc hobj
  rw [ha] at hx
  exact absurd hx (by simp)

/-- No field has a new value but null. -/
theorem acyclic_of_nodes (hm : m.WellFormed)
    (hnodes : ∀ a z, m'.nodes a = some z → m.nodes a = some z ∨ z.p_obj = none) (a : A) :
    ¬Relation.TransGen m'.Links a a := by
  intro hcycle
  refine hm.acyclic a (Relation.TransGen.mono ?_ a a hcycle)
  rintro a₁ a₂ ⟨z, hz, hobj⟩
  rcases hnodes a₁ z hz with hwas | hnull
  · exact ⟨z, hwas, hobj⟩
  · rw [hnull] at hobj
    exact absurd hobj (by simp)

/-- Memory in which no cycle has been closed, with a block for each node. -/
structure Kept (m : Memory V A B) : Prop where
  wellFormed : m.WellFormed
  tied : Tied m ∅

theorem kept_empty : Kept (Memory.empty : Memory V A B) where
  wellFormed := by
    refine ⟨rfl, ?_, ?_, ?_, ?_, ?_⟩
    · intro l x hx
      cases l <;> exact absurd hx (by simp [Memory.get, Memory.empty])
    · intro b c a hc
      exact absurd hc (by simp [Memory.empty])
    · intro b c b' c' a hc
      exact absurd hc (by simp [Memory.empty])
    · intro b c hc
      exact absurd hc (by simp [Memory.empty])
    · intro a hcycle
      obtain ⟨_, ⟨x, hx, _⟩, _⟩ := Relation.TransGen.head'_iff.mp hcycle
      exact absurd hx (by simp [Memory.empty])
  tied := by
    intro a _ hnode
    exact absurd rfl hnode

/-- The block can be reached: a variable refers to it, or the field of a node whose block can. -/
inductive Memory.Held (m : Memory V A B) : B → Prop where
  | var {v : V} {x : Handle A B} {b : B} (hx : m.vars v = some x) (hb : x.p_cb = some b) : Held m b
  | next {b b' : B} {c : ControlBlock A} {a : A} {x : Handle A B} (h : Held m b)
      (hc : m.blocks b = some c) (ha : c.p_obj = some a) (hx : m.nodes a = some x)
      (hb : x.p_cb = some b') : Held m b'

/-- Some handle refers to a block. -/
theorem Memory.WellFormed.referred (hm : m.WellFormed) (hc : m.blocks b = some c) :
    ∃ l x, m.get l = some x ∧ x.p_cb = some b := by
  obtain ⟨hcount, hpos⟩ := hm.counts b c hc
  rw [hcount] at hpos
  obtain ⟨l, hl⟩ := Finset.card_pos.mp hpos
  obtain ⟨x, hx, hb⟩ := Option.bind_eq_some_iff.mp (Finset.mem_filter.mp hl).2
  exact ⟨l, x, hx, hb⟩

/-- Whoever refers to a block, it can be reached if the blocks of the nodes before it can. -/
theorem held_of_before (hk : Kept m) (hc : m.blocks b = some c)
    (hbefore : ∀ a x, m.nodes a = some x → x.p_cb = some b →
      ∀ b' c', m.blocks b' = some c' → c'.p_obj = some a → m.Held b') : m.Held b := by
  obtain ⟨l, x, hx, hb⟩ := hk.wellFormed.referred hc
  cases l with
  | var v => exact .var hx hb
  | next a =>
      have hnode : m.nodes a = some x := hx
      obtain ⟨b', c', hc', hobj⟩ := hk.tied a (Finset.notMem_empty a) (by rw [hnode]; simp)
      exact .next (hbefore a x hnode hb b' c' hc' hobj) hc' hobj hnode hb

/-- **Every block can be reached**: the way back from node to node comes to an end. -/
theorem held_of_kept (hk : Kept m) (hc : m.blocks b = some c) : m.Held b := by
  have hwf : WellFounded (Relation.TransGen m.Links) := by
    have htrans : IsTrans A (Relation.TransGen m.Links) :=
      ⟨fun _ _ _ h₁ h₂ => Relation.TransGen.trans h₁ h₂⟩
    have hirrefl : Std.Irrefl (Relation.TransGen m.Links) := ⟨hk.wellFormed.acyclic⟩
    exact Finite.wellFounded_of_trans_of_irrefl _
  have hnode : ∀ a b c, m.blocks b = some c → c.p_obj = some a → m.Held b := by
    intro a
    induction a using hwf.induction with
    | _ a ih =>
      intro b c hc hobj
      refine held_of_before hk hc ?_
      intro a' x hx hb b' c' hc' hobj'
      refine ih a' (.single ⟨x, hx, ?_⟩) b' c' hc' hobj'
      -- the field refers to the node of its block
      rcases hk.wellFormed.handles (.next a') x hx with ⟨hnull, _⟩ | ⟨b₁, c₁, hb₁, hc₁, hobj₁⟩
      · rw [hnull] at hb
        exact absurd hb (by simp)
      · obtain rfl : b₁ = b := Option.some.inj (hb₁.symm.trans hb)
        obtain rfl : c₁ = c := Option.some.inj (hc₁.symm.trans hc)
        exact hobj₁.trans hobj
  refine held_of_before hk hc ?_
  intro a x _ _ b' c' hc' hobj'
  exact hnode a b' c' hc' hobj'

end Held

/-! ## Careful programs -/

section Careful

variable [DecidableEq A] [DecidableEq B] [DecidableEq V] [Fintype V] [Fintype A]

/-- A variable that has no control block may come and go. -/
theorem wellFormed_setVar (hm : m.WellFormed) (hv : m.p_cb (.var v) = none)
    {x : Option (Handle A B)} (hx : x = none ∨ x = some {}) : (m.setVar v x).WellFormed := by
  have hself : (m.setVar v x).get (.var v) = x := Function.update_self ..
  have hother : ∀ l, l ≠ .var v → (m.setVar v x).get l = m.get l := by
    intro l hl
    cases l with
    | var u => exact Function.update_of_ne (fun huv => hl (congrArg Place.var huv)) ..
    | next a => rfl
  have hcb : ∀ l, (m.setVar v x).p_cb l = m.p_cb l := by
    intro l
    by_cases hl : l = .var v
    · rw [hl, hv, Memory.p_cb, hself]
      rcases hx with rfl | rfl <;> rfl
    · rw [Memory.p_cb, hother l hl]
      rfl
  refine ⟨hm.unfaulted, ?_, hm.nodes, hm.adopted, ?_, hm.acyclic⟩
  · intro l y hy
    by_cases hl : l = .var v
    · rw [hl, hself] at hy
      rcases hx with rfl | rfl
      · exact absurd hy (by simp)
      · rw [← Option.some.inj hy]
        exact .inl ⟨rfl, rfl⟩
    · rw [hother l hl] at hy
      exact hm.handles l y hy
  · intro b c hc
    have hrefs : (m.setVar v x).refs b = m.refs b := by
      unfold Memory.refs
      simp only [hcb]
    rw [hrefs]
    exact hm.counts b c hc

theorem wellFormed_fresh (hm : m.WellFormed) (hv : m.vars v = none) :
    (m.setVar v (some {})).WellFormed := by
  have hnone : m.get (.var v) = none := hv
  refine wellFormed_setVar hm ?_ (.inr rfl)
  rw [Memory.p_cb, hnone]
  rfl

/-! ### A new node -/

theorem create_handles (hm : m.WellFormed) (hb : m.blocks b = none)
    (hy : (m.create v a b).get l = some y) :
    (y.p_cb = none ∧ y.p_obj = none)
      ∨ ∃ b' c, y.p_cb = some b' ∧ (m.create v a b).blocks b' = some c ∧ y.p_obj = c.p_obj := by
  by_cases hl : l = .var v
  · rw [hl, create_var] at hy
    rw [← Option.some.inj hy]
    exact .inr ⟨b, _, rfl, Function.update_self .., rfl⟩
  by_cases hl' : l = .next a
  · have hnull : (m.create v a b).get (.next a) = some {} := create_node m v a b
    rw [hl', hnull] at hy
    rw [← Option.some.inj hy]
    exact .inl ⟨rfl, rfl⟩
  · rw [create_get hl hl'] at hy
    rcases hm.handles l y hy with hnull | ⟨b', c, hcb, hc, hobj⟩
    · exact .inl hnull
    · exact .inr ⟨b', c, hcb, create_keeps hb hc, hobj⟩

theorem create_nodes (hm : m.WellFormed) (ha : m.nodes a = none)
    (hc : (m.create v a b).blocks b' = some c) (hobj : c.p_obj = some a') :
    ∃ x, (m.create v a b).nodes a' = some x := by
  rcases create_blocks hc with ⟨_, rfl⟩ | ⟨_, hc'⟩
  · obtain rfl : a = a' := Option.some.inj hobj
    exact ⟨{}, create_node m v a b⟩
  · obtain ⟨x, hx⟩ := hm.nodes b' c a' hc' hobj
    have haa : a' ≠ a := by
      rintro rfl
      exact hm.no_block ha hc' hobj
    exact ⟨x, (Function.update_of_ne haa ..).trans hx⟩

theorem create_adopted {b₁ b₂ : B} {c₁ c₂ : ControlBlock A} (hm : m.WellFormed)
    (ha : m.nodes a = none) (hc₁ : (m.create v a b).blocks b₁ = some c₁)
    (hc₂ : (m.create v a b).blocks b₂ = some c₂) (hobj₁ : c₁.p_obj = some a')
    (hobj₂ : c₂.p_obj = some a') : b₁ = b₂ := by
  rcases create_blocks hc₁ with ⟨hb₁, rfl⟩ | ⟨_, hc₁⟩
  · rcases create_blocks hc₂ with ⟨hb₂, _⟩ | ⟨_, hc₂⟩
    · exact hb₁.trans hb₂.symm
    · exact absurd (hobj₂.trans hobj₁.symm) (hm.no_block ha hc₂)
  · rcases create_blocks hc₂ with ⟨_, rfl⟩ | ⟨_, hc₂⟩
    · exact absurd (hobj₁.trans hobj₂.symm) (hm.no_block ha hc₁)
    · exact hm.adopted b₁ c₁ b₂ c₂ a' hc₁ hc₂ hobj₁ hobj₂

/-- One more handle refers to the new block, and no other block has one more. -/
theorem create_refs (hv : m.vars v = none) (ha : m.nodes a = none) (b' : B) :
    (m.create v a b).refs b' = m.refs b' + if b = b' then 1 else 0 := by
  have hgone : m.p_cb (.var v) = none := by
    have hnone : m.get (.var v) = none := hv
    rw [Memory.p_cb, hnone]
    rfl
  have hmine : (m.create v a b).p_cb (.var v) = some b := by
    rw [Memory.p_cb, create_var]
    rfl
  have hsame : (m.create v a b).refsOutside (insert (.var v) ∅) b'
      = m.refsOutside (insert (.var v) ∅) b' := by
    refine refsOutside_congr ?_ b'
    intro l hl
    refine create_p_cb ha ?_
    rintro rfl
    exact hl (Finset.mem_insert_self ..)
  have hnew := refsOutside_insert (m := m.create v a b) (Finset.notMem_empty (Place.var v)) b'
  have hwas := refsOutside_insert (m := m) (Finset.notMem_empty (Place.var v)) b'
  rw [hmine, hsame] at hnew
  rw [hgone, if_neg (Option.some_ne_none b').symm] at hwas
  rw [refs_eq, refs_eq, hnew, hwas]
  simp only [Option.some.injEq, Nat.add_zero]

theorem create_counts (hm : m.WellFormed) (hv : m.vars v = none) (ha : m.nodes a = none)
    (hb : m.blocks b = none) (hc : (m.create v a b).blocks b' = some c) :
    c.m_count = (m.create v a b).refs b' ∧ 0 < c.m_count := by
  rw [create_refs hv ha]
  rcases create_blocks hc with ⟨rfl, rfl⟩ | ⟨hbb, hc⟩
  · have hzero : m.refs b' = 0 :=
      Finset.card_eq_zero.mpr (Finset.filter_eq_empty_iff.mpr fun l _ => hm.no_handle hb l)
    rw [hzero, if_pos rfl]
    exact ⟨rfl, Nat.one_pos⟩
  · rw [if_neg fun he => hbb he.symm]
    exact hm.counts b' c hc

/-- **A new node**, with a block and a handle of its own. -/
theorem wellFormed_create (hm : m.WellFormed) (hv : m.vars v = none) (ha : m.nodes a = none)
    (hb : m.blocks b = none) : (m.create v a b).WellFormed where
  unfaulted := hm.unfaulted
  handles := fun _ _ hy => create_handles hm hb hy
  nodes := fun _ _ _ hc hobj => create_nodes hm ha hc hobj
  adopted := fun _ _ _ _ _ hc₁ hc₂ hobj₁ hobj₂ => create_adopted hm ha hc₁ hc₂ hobj₁ hobj₂
  counts := fun _ _ hc => create_counts hm hv ha hb hc
  acyclic := acyclic_of_nodes hm fun a' z hz => by
    by_cases haa : a' = a
    · rw [haa, create_node] at hz
      rw [← Option.some.inj hz]
      exact .inr rfl
    · exact .inl ((Function.update_of_ne haa ..).symm.trans hz)

/-! ### Assignments -/

variable [Fintype B]

/-- What the two assignments have in common: one whose source stays keeps the counts. -/
theorem wellFormed_assign (other : Place V A) (hm : m.WellFormed) (hh : m.get h ≠ none)
    (hself : h = other → m' = m) (hstays : m.SourceStays h other)
    (hspec : ∀ x y, h ≠ other → m.get h = some x → (m.release x).get other = some y → Counted m')
    (hacyclic : ∀ a, ¬Relation.TransGen m'.Links a a) :
    m'.WellFormed := by
  by_cases hne : h = other
  · rw [hself hne]
    exact hm
  · obtain ⟨x, hx⟩ := Option.ne_none_iff_exists'.mp hh
    obtain ⟨y, hy⟩ := Option.ne_none_iff_exists'.mp (hstays hne x hx)
    exact wellFormed_of_counted (hspec x y hne hx hy) hacyclic

theorem wellFormed_copyAssign (hm : m.WellFormed) (hh : m.get h ≠ none)
    (hc : Careful m (.copyAssign h other)) : (m.copyAssign h other).WellFormed := by
  refine wellFormed_assign other hm hh ?_ hc.1 ?_ hc.2
  · intro heq
    unfold Memory.copyAssign
    rw [if_neg (not_not.mpr heq)]
  · intro x y hne hx hy
    exact (copyAssign_spec hm hne hx hy).1

theorem wellFormed_moveAssign (hm : m.WellFormed) (hh : m.get h ≠ none)
    (hc : Careful m (.moveAssign h other)) : (m.moveAssign h other).WellFormed := by
  refine wellFormed_assign other hm hh ?_ hc.1 ?_ hc.2
  · intro heq
    unfold Memory.moveAssign
    rw [if_neg (not_not.mpr heq)]
  · intro x y hne hx hy
    exact (moveAssign_spec hm hne hx hy).1

/-! ### The constructors that take a handle -/

theorem wellFormed_copyCtor (hm : m.WellFormed) (hv : m.vars v = none)
    (hother : m.get other ≠ none) : (m.copyCtor v other).WellFormed := by
  obtain ⟨y, hy⟩ := Option.ne_none_iff_exists'.mp hother
  obtain ⟨hget, hne⟩ := get_fresh hv hy
  have hnull : (m.setVar v (some {})).get (.var v) = some {} := Function.update_self ..
  have hcounted := (copyAssign_spec (wellFormed_fresh hm hv) hne hnull hget).1
  rw [← copyCtor_eq hv hy] at hcounted
  refine wellFormed_of_counted hcounted (acyclic_of_nodes hm ?_)
  intro a z hz
  have hnodes : (m.copyCtor v other).nodes = m.nodes := by
    simp only [Memory.copyCtor, hy]
    cases y.p_cb with
    | none => rfl
    | some b =>
        simp only [Memory.addRef]
        cases (m.setVar v (some y)).blocks b <;> rfl
  rw [hnodes] at hz
  exact .inl hz

theorem wellFormed_moveCtor (hm : m.WellFormed) (hv : m.vars v = none)
    (hother : m.get other ≠ none) : (m.moveCtor v other).WellFormed := by
  obtain ⟨y, hy⟩ := Option.ne_none_iff_exists'.mp hother
  obtain ⟨hget, hne⟩ := get_fresh hv hy
  have hnull : (m.setVar v (some {})).get (.var v) = some {} := Function.update_self ..
  have hcounted := (moveAssign_spec (wellFormed_fresh hm hv) hne hnull hget).1
  rw [← moveCtor_eq hv hy] at hcounted
  refine wellFormed_of_counted hcounted (acyclic_of_nodes hm ?_)
  intro a z hz
  have hsource : (m.setVar v (some y)).get other ≠ none := by
    rw [← setVar_set]
    rw [get_set_of_ne hnull y hne.symm, hget]
    exact Option.some_ne_none y
  obtain ⟨y', hy'⟩ := Option.ne_none_iff_exists'.mp hsource
  simp only [Memory.moveCtor, hy] at hz
  have hplace : ((m.setVar v (some y)).set other {}).get (.next a) = some z := hz
  by_cases hsame : Place.next a = other
  · subst hsame
    rw [get_set_self hy'] at hplace
    rw [← Option.some.inj hplace]
    exact .inr rfl
  · rw [get_set_of_ne hy' {} hsame] at hplace
    exact .inl hplace

/-- After a reset the handle is null. -/
theorem p_cb_reset (hm : m.WellFormed) (hx : m.get l = some x) : (m.reset l).p_cb l = none := by
  have hself : (m.release x).get l = some x := (release_spec hm hx).2.get_self.trans hx
  have hnull : (m.reset l).get l = some {} := by
    unfold Memory.reset
    simp only [hx]
    exact get_set_self hself {}
  rw [Memory.p_cb, hnull]
  rfl

/-! ### Programs -/

theorem kept_step {op : Op V A B} (hk : Kept m) (hc : Careful m op) (hs : step m op = some m') :
    Kept m' := by
  cases op with
  | ctor v =>
      obtain ⟨hv, rfl⟩ := Transition.of_guard hs
      exact ⟨wellFormed_fresh hk.wellFormed hv, hk.tied⟩
  | create v a b =>
      obtain ⟨⟨hv, ha, hb⟩, rfl⟩ := Transition.of_guard hs
      exact ⟨wellFormed_create hk.wellFormed hv ha hb, tied_create hk.tied hb v a⟩
  | copyCtor v other =>
      obtain ⟨⟨hv, hother⟩, rfl⟩ := Transition.of_guard hs
      exact ⟨wellFormed_copyCtor hk.wellFormed hv hother, tied_copyCtor hk.tied v other⟩
  | moveCtor v other =>
      obtain ⟨⟨hv, hother⟩, rfl⟩ := Transition.of_guard hs
      exact ⟨wellFormed_moveCtor hk.wellFormed hv hother, tied_moveCtor hk.tied v other⟩
  | copyAssign h other =>
      obtain ⟨⟨hh, _⟩, rfl⟩ := Transition.of_guard hs
      exact ⟨wellFormed_copyAssign hk.wellFormed hh hc, tied_copyAssign hk.tied h other⟩
  | moveAssign h other =>
      obtain ⟨⟨hh, _⟩, rfl⟩ := Transition.of_guard hs
      exact ⟨wellFormed_moveAssign hk.wellFormed hh hc, tied_moveAssign hk.tied h other⟩
  | reset h =>
      obtain ⟨hh, rfl⟩ := Transition.of_guard hs
      obtain ⟨x, hx⟩ := Option.ne_none_iff_exists'.mp hh
      exact ⟨reset_wellFormed hk.wellFormed hx, tied_reset hk.tied h⟩
  | dtor v =>
      obtain ⟨hv, rfl⟩ := Transition.of_guard hs
      obtain ⟨x, hx⟩ := Option.ne_none_iff_exists'.mp hv
      have hreset := reset_wellFormed (h := .var v) hk.wellFormed hx
      have hnull := p_cb_reset (l := .var v) hk.wellFormed hx
      exact ⟨wellFormed_setVar hreset hnull (.inl rfl), tied_reset hk.tied (.var v)⟩

theorem kept_reachable (h : Reachable m) : Kept m :=
  h.invariant kept_empty fun _ _ _ _ hk hs => kept_step hk hs.1 hs.2

end Careful

variable [DecidableEq A] [DecidableEq B] [DecidableEq V] [Fintype B] [Fintype V] [Fintype A]

/--
**Without cycles nothing is leaked.**

Nodes have one field each, a shared pointer to a node. A program makes nodes, copies and moves
handles by construction and by assignment, resets them to null and destroys its variables; it does
not reset a handle to a new pointer, and memory for a node and its control block is always found.
Whatever it does, as long as no assignment closes a cycle or destroys its own source: no memory is
used that was given back, each node has a control block and each control block can be reached from a
variable. When no variable refers to anything, there are no nodes and no control blocks.
-/
theorem no_leak (m : Memory V A B) (h : Reachable m) :
    m.faulted = false
      ∧ (∀ a, m.nodes a ≠ none → ∃ b c, m.blocks b = some c ∧ c.p_obj = some a)
      ∧ (∀ b, m.blocks b ≠ none → m.Held b)
      ∧ ((∀ v, m.p_cb (.var v) = none) → ∀ a b, m.nodes a = none ∧ m.blocks b = none) := by
  have hk := kept_reachable h
  have hheld : ∀ b, m.blocks b ≠ none → m.Held b := by
    intro b hb
    obtain ⟨c, hc⟩ := Option.ne_none_iff_exists'.mp hb
    exact held_of_kept hk hc
  have htied : ∀ a, m.nodes a ≠ none → ∃ b c, m.blocks b = some c ∧ c.p_obj = some a := by
    intro a ha
    exact hk.tied a (Finset.notMem_empty a) ha
  refine ⟨hk.wellFormed.unfaulted, htied, hheld, ?_⟩
  intro hnone
  have hempty : ∀ b, m.blocks b = none := by
    intro b
    by_contra hb
    have hnever : ∀ b, ¬m.Held b := by
      intro b hb
      induction hb with
      | @var v _ _ hx hb =>
          have hnull := hnone v
          rw [Memory.p_cb, Memory.get, hx] at hnull
          exact absurd (hb.symm.trans hnull) (by simp)
      | next _ _ _ _ _ ih => exact ih
    exact hnever b (hheld b hb)
  intro a b
  refine ⟨?_, hempty b⟩
  by_contra ha
  obtain ⟨b', c, hc, _⟩ := htied a ha
  rw [hempty b'] at hc
  exact absurd hc (by simp)

/-- Two nodes, each with a variable, the first linked to the second. -/
def linked (v v' : V) (a a' : A) (b b' : B) : Memory V A B :=
  ((Memory.empty.create v a b).create v' a' b').copyAssign (.next a) (.var v')

theorem linked_careful :
    Careful (((Memory.empty : Memory (Fin 2) (Fin 2) (Fin 2)).create 0 0 0).create 1 1 1)
      (.copyAssign (.next 0) (.var 1)) := by
  refine ⟨fun _ x hx => ?_, ?_⟩
  · obtain rfl : x = {} := (Option.some.inj hx).symm
    decide
  have hup : ∀ a a' : Fin 2, ((linked (0 : Fin 2) 1 (0 : Fin 2) 1 (0 : Fin 2) 1).nodes a).bind
      Handle.p_obj = some a' → a < a' := by decide
  have hlinks : (linked (0 : Fin 2) 1 (0 : Fin 2) 1 (0 : Fin 2) 1).Links ≤ (· < ·) := by
    rintro a a' ⟨x, hx, hobj⟩
    exact hup a a' (Option.bind_eq_some_iff.mpr ⟨x, hx, hobj⟩)
  intro a hcycle
  have hlt := Relation.TransGen.mono hlinks a a hcycle
  rw [Relation.transGen_eq_self] at hlt
  exact lt_irrefl a hlt

/-- The variables are destroyed, that of the second node first: it stays until the other goes. -/
theorem no_leak_list :
    (∀ a, ((linked (0 : Fin 2) 1 (0 : Fin 2) 1 (0 : Fin 2) 1).dtor 1).nodes a ≠ none)
      ∧ ∀ a b, (((linked (0 : Fin 2) 1 (0 : Fin 2) 1 (0 : Fin 2) 1).dtor 1).dtor 0).nodes a = none
        ∧ (((linked (0 : Fin 2) 1 (0 : Fin 2) 1 (0 : Fin 2) 1).dtor 1).dtor 0).blocks b = none := by
  have hfirst : Reachable ((Memory.empty : Memory (Fin 2) (Fin 2) (Fin 2)).create 0 0 0) :=
    reach_create .init ⟨rfl, rfl, rfl⟩
  have hsecond := reach_create (v := 1) (a := 1) (b := 1) hfirst ⟨rfl, rfl, rfl⟩
  have hlinked : Reachable (linked (0 : Fin 2) 1 (0 : Fin 2) 1 (0 : Fin 2) 1) :=
    reach_copyAssign hsecond (by decide) linked_careful
  have hnone := reach_dtor (reach_dtor hlinked (v := 1) (by decide)) (v := 0) (by decide)
  exact ⟨by decide, (no_leak _ hnone).2.2.2 (by decide)⟩

/-- Each node refers to the other, and they outlive their variables. -/
example : (Transition.exec step (linked (0 : Fin 2) 1 (0 : Fin 2) 1 (0 : Fin 2) 1)
    [.copyAssign (.next 1) (.var 0), .dtor 1, .dtor 0]).any
      (fun m => (m.nodes 0).isSome && (m.nodes 1).isSome && !m.faulted) = true := by
  decide

end QuickStructs.LinkedPtr
