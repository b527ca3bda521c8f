import QuickStructs.Proof.Cascade

/-!
# Assigning from a field of the target's node

An assignment releases the old reference of its target first and reads the source after that.
That is right whenever the source survives the release. A field of the node that the target
refers to survives if the node has another reference, and is destroyed with the node if the
target had the last one; then what is read is no handle any more.
-/

namespace QuickStructs.LinkedPtr

variable {V A B : Type} [Fintype V] [Fintype A] [DecidableEq V] [DecidableEq A] [DecidableEq B]
variable {m m' : Memory V A B} {D : Finset (Place V A)} {Z : Finset B} {l h other : Place V A}
variable {a : A} {b : B} {c : ControlBlock A} {x y z : Handle A B}

/-! ## Writing to a handle -/

section Writing

omit [Fintype V] [Fintype A]

omit [DecidableEq B] in
theorem set_fields (hx : m.get l = some x) (y : Handle A B) :
    (m.set l y).blocks = m.blocks ∧ (m.set l y).faulted = m.faulted := by
  unfold Memory.set
  rw [hx]
  cases l <;> exact ⟨rfl, rfl⟩

omit [DecidableEq B] in
theorem get_set_self (hx : m.get l = some x) (y : Handle A B) : (m.set l y).get l = some y := by
  unfold Memory.set
  rw [hx]
  cases l <;> exact Function.update_self ..

omit [DecidableEq B] in
theorem get_set_of_ne (hx : m.get l = some x) (y : Handle A B) (hl : h ≠ l) :
    (m.set l y).get h = m.get h := by
  unfold Memory.set
  rw [hx]
  cases l with
  | var v =>
      cases h with
      | var u => exact Function.update_of_ne (fun huv => hl (congrArg Place.var huv)) ..
      | next a => rfl
  | next a =>
      cases h with
      | var u => rfl
      | next a' => exact Function.update_of_ne (fun haa => hl (congrArg Place.next haa)) ..

omit [DecidableEq B] in
/-- A write deletes no node. -/
theorem nodes_set (hx : m.get l = some x) (y : Handle A B) (hz : m.nodes a = some z) :
    ∃ z', (m.set l y).nodes a = some z' := by
  by_cases hl : Place.next a = l
  · subst hl
    exact ⟨y, get_set_self hx y⟩
  · exact ⟨z, (get_set_of_ne hx y hl).trans hz⟩

omit [DecidableEq V] [DecidableEq A] in
theorem addRef_eq (hb : m.blocks b = some c) :
    m.addRef b = m.setBlock b (some { c with m_count := c.m_count + 1 }) := by
  unfold Memory.addRef
  rw [hb]

/-- What is written to a handle does not concern the counts. -/
theorem addRef_set (hx : m.get l = some x) (y : Handle A B) (hb : m.blocks b = some c) :
    (m.set l y).addRef b = (m.addRef b).set l y := by
  have hb' : (m.set l y).blocks b = some c := by
    rw [(set_fields hx y).1]
    exact hb
  have hx' : (m.addRef b).get l = some x := by
    rw [addRef_eq hb]
    cases l <;> exact hx
  rw [addRef_eq hb', addRef_eq hb]
  rw [addRef_eq hb] at hx'
  unfold Memory.set
  rw [hx, hx']
  cases l <;> rfl

end Writing

/-- A handle that is null, or refers to a block and what the block manages. -/
def Memory.Valid (m : Memory V A B) (x : Handle A B) : Prop :=
  (x.p_cb = none ∧ x.p_obj = none)
    ∨ ∃ b c, x.p_cb = some b ∧ m.blocks b = some c ∧ x.p_obj = c.p_obj

/-- **The pending reference goes to a handle.** -/
theorem partial_give (hp : Partial m (insert l D) Z y.p_cb) (hl : l ∉ D) (hx : m.get l = some x)
    (hy : m.Valid y) : Partial (m.set l y) D Z none := by
  obtain ⟨hblocks, hfaulted⟩ := set_fields hx y
  refine ⟨hfaulted.trans hp.unfaulted, fun k hk z hz => ?_, fun b c a hc hobj => ?_,
    hblocks ▸ hp.adopted, fun b c hc => ?_, hblocks ▸ hp.positive, hblocks ▸ hp.zero⟩
  · rw [hblocks]
    by_cases hkl : k = l
    · rw [hkl, get_set_self hx y] at hz
      rw [← Option.some.inj hz]
      exact hy
    · rw [get_set_of_ne hx y hkl] at hz
      exact hp.handles k (fun hmem => (Finset.mem_insert.mp hmem).elim hkl hk) z hz
  · rw [hblocks] at hc
    obtain ⟨z, hz⟩ := hp.nodes b c a hc hobj
    exact nodes_set hx y hz
  · rw [hblocks] at hc
    have hcount := hp.counts b c hc
    have hsplit := refsOutside_insert (m := m.set l y) hl b
    have hself : (m.set l y).p_cb l = y.p_cb := by
      unfold Memory.p_cb
      rw [get_set_self hx y]
      rfl
    have hcong : (m.set l y).refsOutside (insert l D) b = m.refsOutside (insert l D) b := by
      refine refsOutside_congr (fun k hk => ?_) b
      unfold Memory.p_cb
      rw [get_set_of_ne hx y fun hkl => hk (hkl ▸ Finset.mem_insert_self ..)]
    rw [hself, hcong] at hsplit
    rw [hcount, hsplit]
    rfl

/-- **An `add_ref`.** -/
theorem partial_addRef (hp : Partial m D Z none) (hb : m.blocks b = some c) (hz : b ∉ Z) :
    Partial (m.addRef b) D Z (some b) := by
  rw [addRef_eq hb]
  refine hp.recount hb ?_ (fun b' hbb => ?_) (fun _ => Nat.succ_pos _) (fun hz' => absurd hz' hz)
    fun _ _ => Iff.rfl
  · rw [if_pos rfl, hp.counts b c hb, if_neg (Option.some_ne_none b).symm]
  · exact iff_of_false (fun heq => hbb (Option.some.inj heq).symm) (Option.some_ne_none b').symm

/-! ## The operations -/

/-- Between operations nothing is left out. -/
abbrev Counted (m : Memory V A B) : Prop := Partial m ∅ ∅ none

theorem Memory.WellFormed.counted (hm : m.WellFormed) : Counted m := by
  refine ⟨hm.unfaulted, fun l _ => hm.handles l, hm.nodes, hm.adopted, fun b c hc => ?_,
    fun b c hc _ => (hm.counts b c hc).2, fun b hb => absurd hb (Finset.notMem_empty b)⟩
  rw [(hm.counts b c hc).1, refs_eq]
  rfl

theorem wellFormed_of_counted (hm : Counted m) (hacyclic : ∀ a, ¬Relation.TransGen m.Links a a) :
    m.WellFormed := by
  refine ⟨hm.unfaulted, fun l => hm.handles l (Finset.notMem_empty l), hm.nodes, hm.adopted,
    fun b c hc => ⟨?_, hm.positive b c hc (Finset.notMem_empty b)⟩, hacyclic⟩
  rw [refs_eq]
  exact hm.counts b c hc

variable [Fintype B]

/-- **`release()`, in memory that is well formed.** -/
theorem release_spec (hm : m.WellFormed) (hx : m.get h = some x) :
    Partial (m.release x) {h} ∅ none ∧ Spares m (m.release x) {h} ∅ := by
  have henter : Partial m {h} ∅ x.p_cb := partial_enter hm.counted (Finset.notMem_empty h) hx
  unfold Memory.release
  cases hcb : x.p_cb with
  | none =>
      rw [hcb] at henter
      exact ⟨henter, Spares.refl ..⟩
  | some b =>
      rw [hcb] at henter
      rcases hm.handles h x hx with ⟨hnull, _⟩ | ⟨b', c, hcb', hc, hobj⟩
      · rw [hcb] at hnull
        exact absurd hnull (by simp)
      rw [hcb] at hcb'
      rw [← Option.some.inj hcb'] at hc
      refine cascade _ m {h} ∅ b c ⟨henter, hc, hm.acyclic,
        fun a₀ a ha₀ ha => ?_, Nat.lt_succ_self _⟩
      have hplace : Place.next a₀ = h := Finset.mem_singleton.mp ha₀
      subst hplace
      exact .single ⟨x, hx, hobj.trans ha⟩

omit [Fintype V] [Fintype A] [DecidableEq V] [DecidableEq A] [DecidableEq B] [Fintype B] in
/-- The handle that releases is there when the release returns. -/
theorem Spares.get_self (hs : Spares m m' {h} Z) : m'.get h = m.get h := by
  cases h with
  | var v => exact congrFun hs.vars v
  | next a => exact hs.dying a (Finset.mem_singleton_self _)

/-- **A reset keeps memory well formed**, whatever it deletes. -/
theorem reset_wellFormed (hm : m.WellFormed) (hx : m.get h = some x) : (m.reset h).WellFormed := by
  obtain ⟨hp, hs⟩ := release_spec hm hx
  have hself : (m.release x).get h = some x := hs.get_self.trans hx
  unfold Memory.reset
  simp only [hx]
  refine wellFormed_of_counted (partial_give (D := ∅) hp (Finset.notMem_empty h) hself
    (Or.inl ⟨rfl, rfl⟩)) fun a ha => hm.acyclic a ?_
  -- there are no links that were not there
  refine Relation.TransGen.mono (fun a₁ a₂ hlink => ?_) a a ha
  obtain ⟨z, hz, hobj⟩ := hlink
  by_cases hl : Place.next a₁ = h
  · subst hl
    have hnull : some ({} : Handle A B) = some z := (get_set_self hself {}).symm.trans hz
    rw [← Option.some.inj hnull] at hobj
    exact absurd hobj (by simp)
  · exact hs.links ⟨z, (get_set_of_ne hself {} hl).symm.trans hz, hobj⟩

/-- **A copy assignment from a source that survives the release.** -/
theorem copyAssign_spec (hm : m.WellFormed) (hne : h ≠ other) (hx : m.get h = some x)
    (hy : (m.release x).get other = some y) :
    Counted (m.copyAssign h other) ∧ (m.copyAssign h other).get h = some y := by
  obtain ⟨hp, hs⟩ := release_spec hm hx
  have hself : (m.release x).get h = some x := hs.get_self.trans hx
  have hother : other ∉ ({h} : Finset (Place V A)) := fun hmem =>
    hne (Finset.mem_singleton.mp hmem).symm
  have hvalid := hp.handles other hother y hy
  unfold Memory.copyAssign
  simp only [if_pos hne, hx, hy]
  cases hcb : y.p_cb with
  | none =>
      have hp' : Partial (m.release x) (insert h ∅) ∅ y.p_cb := by rw [hcb]; exact hp
      exact ⟨partial_give hp' (Finset.notMem_empty h) hself hvalid, get_set_self hself y⟩
  | some b =>
      rcases id hvalid with ⟨hnull, _⟩ | ⟨b', c, hcb', hc, hobj⟩
      · rw [hcb] at hnull
        exact absurd hnull (by simp)
      rw [hcb] at hcb'
      rw [← Option.some.inj hcb'] at hc
      have hp' : Partial ((m.release x).addRef b) (insert h ∅) ∅ y.p_cb := by
        rw [hcb]
        exact partial_addRef hp hc (Finset.notMem_empty b)
      have hself' : ((m.release x).addRef b).get h = some x := by
        rw [addRef_eq hc]
        cases h <;> exact hself
      have hvalid' : ((m.release x).addRef b).Valid y := by
        rw [addRef_eq hc]
        exact Or.inr ⟨b, _, hcb, Function.update_self .., hobj⟩
      show Counted (((m.release x).set h y).addRef b) ∧ (((m.release x).set h y).addRef b).get h = _
      rw [addRef_set hself y hc]
      exact ⟨partial_give hp' (Finset.notMem_empty h) hself' hvalid', get_set_self hself' y⟩

/-- **A move assignment from a source that survives the release.** -/
theorem moveAssign_spec (hm : m.WellFormed) (hne : h ≠ other) (hx : m.get h = some x)
    (hy : (m.release x).get other = some y) :
    Counted (m.moveAssign h other) ∧ (m.moveAssign h other).get h = some y := by
  obtain ⟨hp, hs⟩ := release_spec hm hx
  have hself : (m.release x).get h = some x := hs.get_self.trans hx
  have hother : other ∉ ({h} : Finset (Place V A)) := fun hmem =>
    hne (Finset.mem_singleton.mp hmem).symm
  have hvalid := hp.handles other hother y hy
  -- the source gives up its reference, which goes to the target
  have henter := partial_enter hp hother hy
  rw [Finset.pair_comm] at henter
  have hgive : Partial ((m.release x).set h y) {other} ∅ none :=
    partial_give henter (fun hmem => hne (Finset.mem_singleton.mp hmem)) hself hvalid
  have hother' : ((m.release x).set h y).get other = some y :=
    (get_set_of_ne hself y hne.symm).trans hy
  unfold Memory.moveAssign
  simp only [if_pos hne, hx, hy]
  exact ⟨partial_give (D := ∅) hgive (Finset.notMem_empty other) hother' (Or.inl ⟨rfl, rfl⟩),
    (get_set_of_ne hother' {} hne).trans (get_set_self hself y)⟩

/-! ## The field of the target's node -/

omit [Fintype V] [Fintype A] [DecidableEq V] [DecidableEq A] [Fintype B] in
theorem nodes_freeBlock (m : Memory V A B) (b : B) : (m.freeBlock b).nodes = m.nodes := by
  unfold Memory.freeBlock
  split <;> rfl

omit [Fintype V] [Fintype A] [DecidableEq V] [DecidableEq B] [Fintype B] in
/-- A node that is deleted is gone, whatever the release of its field does. -/
theorem nodes_deleteNode (release : Memory V A B → B → Memory V A B) (m : Memory V A B) (a : A) :
    (m.deleteNode release a).nodes a = none := by
  unfold Memory.deleteNode
  split
  · rename_i hx
    exact hx
  · split <;> exact Function.update_self ..

omit [Fintype V] [Fintype A] [DecidableEq V] in
/-- The last reference to a node takes the node with it. -/
theorem release_last (hcb : x.p_cb = some b) (hb : m.blocks b = some c) (hone : c.m_count = 1)
    (hobj : c.p_obj = some a) : (m.release x).nodes a = none := by
  unfold Memory.release
  simp only [hcb, Memory.releaseIn, hb, if_pos hone, hobj]
  rw [nodes_freeBlock]
  exact nodes_deleteNode ..

omit [Fintype V] [Fintype A] [DecidableEq V] in
/-- Any other reference only counts. -/
theorem release_shared (hcb : x.p_cb = some b) (hb : m.blocks b = some c) (hone : c.m_count ≠ 1) :
    m.release x = m.setBlock b (some { c with m_count := c.m_count - 1 }) := by
  unfold Memory.release
  simp only [hcb, Memory.releaseIn, hb, if_neg hone]

/-- The assignment has given `h` the value `y`, and left everything in order. -/
structure Assigned (h : Place V A) (y : Handle A B) (m' : Memory V A B) : Prop where
  refers : m'.get h = some y
  /-- The node has not been deleted. -/
  alive : ∀ a, y.p_obj = some a → ∃ z, m'.nodes a = some z
  counts : ∀ b c, m'.blocks b = some c → c.m_count = m'.refs b
  /-- No destroyed handle was read, and no memory used that was given back. -/
  unfaulted : m'.faulted = false

omit [Fintype B] in
theorem assigned_of_counted (hc : Counted m') (hh : m'.get h = some y) : Assigned h y m' := by
  refine ⟨hh, fun a ha => ?_, fun b c hb => ?_, hc.unfaulted⟩
  · rcases hc.handles h (Finset.notMem_empty h) y hh with ⟨_, hnull⟩ | ⟨b, c, _, hb, hobj⟩
    · rw [hnull] at ha
      exact absurd ha (by simp)
    · exact hc.nodes b c a hb (hobj.symm.trans ha)
  · rw [refs_eq]
    exact hc.counts b c hb

/--
**The assignments `h = h->next` and `h = std::move(h->next)`.**

They do what they should if and only if `h` is not the only reference to its node. Otherwise
the release destroys the field, and then it is read.
-/
theorem next_assign_iff (m : Memory V A B) (hm : m.WellFormed) (h : Place V A)
    (x : Handle A B) (a : A)
    (hx : m.get h = some x) (ha : x.p_obj = some a) : ∃ y, m.get (.next a) = some y
      ∧ (Assigned h y (m.copyAssign h (.next a)) ↔ 2 ≤ m.useCount x)
      ∧ (Assigned h y (m.moveAssign h (.next a)) ↔ 2 ≤ m.useCount x) := by
  obtain ⟨b, c, hcb, hb, hobj⟩ : ∃ b c,
      x.p_cb = some b ∧ m.blocks b = some c ∧ x.p_obj = c.p_obj := by
    rcases hm.handles h x hx with ⟨_, hnull⟩ | hblock
    · rw [hnull] at ha
      exact absurd ha (by simp)
    · exact hblock
  obtain ⟨y, hy⟩ := hm.nodes b c a hb (hobj.symm.trans ha)
  have hcount : m.useCount x = c.m_count := by
    unfold Memory.useCount
    rw [hcb]
    show ((m.blocks b).map ControlBlock.m_count).getD 0 = c.m_count
    rw [hb]
    rfl
  have hpos := (hm.counts b c hb).2
  -- a handle that is the field of its own node is a cycle
  have hne : h ≠ .next a := by
    intro heq
    subst heq
    exact hm.acyclic a (.single ⟨x, hx, ha⟩)
  refine ⟨y, hy, ?_⟩
  rw [hcount]
  by_cases hone : c.m_count = 1
  · have hgone : (m.release x).get (.next a) = none := release_last hcb hb hone (hobj.symm.trans ha)
    have hread : ∀ m' : Memory V A B, m' = (m.release x).fault → ¬Assigned h y m' := by
      intro m' heq hassigned
      have hfault := hassigned.unfaulted
      rw [heq] at hfault
      exact absurd hfault (by simp [Memory.fault])
    have hcopy : m.copyAssign h (.next a) = (m.release x).fault := by
      unfold Memory.copyAssign
      simp only [if_pos hne, hx, hgone]
    have hmove : m.moveAssign h (.next a) = (m.release x).fault := by
      unfold Memory.moveAssign
      simp only [if_pos hne, hx, hgone]
    exact ⟨iff_of_false (hread _ hcopy) (by omega), iff_of_false (hread _ hmove) (by omega)⟩
  · have hsurvives : (m.release x).get (.next a) = some y := by
      rw [release_shared hcb hb hone]
      exact hy
    obtain ⟨hcopy, hcopy'⟩ := copyAssign_spec hm hne hx hsurvives
    obtain ⟨hmove, hmove'⟩ := moveAssign_spec hm hne hx hsurvives
    exact ⟨iff_of_true (assigned_of_counted hcopy hcopy') (by omega),
      iff_of_true (assigned_of_counted hmove hmove') (by omega)⟩

/-- The list `0 → 1`, with the variable 0 at its head; with `shared`, the variable 1 is there
too. -/
def pair (shared : Bool) : Memory (Fin 2) (Fin 2) (Fin 2) where
  vars v := if v = 0 ∨ shared then some ⟨some 0, some 0⟩ else some {}
  nodes a := if a = 0 then some ⟨some 1, some 1⟩ else some {}
  blocks b := some ⟨if b = 0 ∧ shared then 2 else 1, some b⟩

theorem pair_wellFormed (shared : Bool) : (pair shared).WellFormed where
  unfaulted := rfl
  handles := by
    intro l x hx
    cases l with
    | var v =>
        have hx' : (if v = 0 ∨ shared = true then some (⟨some 0, some 0⟩ : Handle (Fin 2) (Fin 2))
          else some {}) = some x := hx
        split at hx'
        · rw [← Option.some.inj hx']
          exact Or.inr ⟨0, _, rfl, rfl, rfl⟩
        · rw [← Option.some.inj hx']
          exact Or.inl ⟨rfl, rfl⟩
    | next a =>
        have hx' : (if a = 0 then some (⟨some 1, some 1⟩ : Handle (Fin 2) (Fin 2)) else some {})
          = some x := hx
        split at hx'
        · rw [← Option.some.inj hx']
          exact Or.inr ⟨1, _, rfl, rfl, rfl⟩
        · rw [← Option.some.inj hx']
          exact Or.inl ⟨rfl, rfl⟩
  nodes := by
    intro b c a _ _
    by_cases ha : a = 0
    · exact ⟨_, if_pos ha⟩
    · exact ⟨_, if_neg ha⟩
  adopted := by
    intro b c b' c' a hb hb' ha ha'
    rw [← Option.some.inj hb] at ha
    rw [← Option.some.inj hb'] at ha'
    exact (Option.some.inj ha).trans (Option.some.inj ha').symm
  counts := by
    intro b c hb
    rw [← Option.some.inj hb]
    clear hb
    revert b
    cases shared <;> decide
  acyclic := by
    intro a ha
    -- a link goes to a greater address
    have hlt : (pair shared).Links ≤ (· < ·) := by
      rintro a a' ⟨x, hx, hobj⟩
      have hx' : (if a = 0 then some (⟨some 1, some 1⟩ : Handle (Fin 2) (Fin 2)) else some {})
        = some x := hx
      split at hx'
      · rename_i hzero
        rw [← Option.some.inj hx'] at hobj
        rw [hzero, ← Option.some.inj hobj]
        decide
      · rw [← Option.some.inj hx'] at hobj
        exact absurd hobj (by simp)
    have htrans := Relation.TransGen.mono hlt a a ha
    rw [Relation.transGen_eq_self] at htrans
    exact lt_irrefl a htrans

/-- With a second variable at the head of the list, the first may go on to its next node. -/
theorem next_assign_iff_shared : ∃ y, (pair true).get (.next 0) = some y
    ∧ (Assigned (.var 0) y ((pair true).copyAssign (.var 0) (.next 0))
      ↔ 2 ≤ (pair true).useCount ⟨some 0, some 0⟩)
    ∧ (Assigned (.var 0) y ((pair true).moveAssign (.var 0) (.next 0))
      ↔ 2 ≤ (pair true).useCount ⟨some 0, some 0⟩) :=
  next_assign_iff (pair true) (pair_wellFormed true) (.var 0) ⟨some 0, some 0⟩ 0 rfl rfl

/-- With the only reference to the head of the list, neither assignment does what it should. -/
theorem next_assign_destroys : (pair false).WellFormed
    ∧ (pair false).get (.var 0) = some ⟨some 0, some 0⟩
    ∧ (pair false).get (.next 0) = some ⟨some 1, some 1⟩
    ∧ ¬Assigned (.var 0) ⟨some 1, some 1⟩ ((pair false).copyAssign (.var 0) (.next 0))
    ∧ ¬Assigned (.var 0) ⟨some 1, some 1⟩ ((pair false).moveAssign (.var 0) (.next 0)) := by
  refine ⟨pair_wellFormed false, rfl, rfl, fun h => ?_, fun h => ?_⟩
  · exact absurd h.unfaulted (by decide)
  · exact absurd h.unfaulted (by decide)

end QuickStructs.LinkedPtr
