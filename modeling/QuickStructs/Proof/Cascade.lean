import QuickStructs.Handle.LinkedPtr

/-!
# The release of a node releases what it refers to

While the last reference to a node is released, the destructor of its field is running, and it
may be waiting for the release of the next node. So in between there are handles that have
given up their reference and still have their old value, and control blocks whose count is
zero and that are still there. What is said of the memory then leaves these handles out and
sets these blocks apart; when the release returns, there is one fewer of each.

The induction is on the number of calls. Each call sets one more block apart, so there cannot
be more calls than blocks.
-/

namespace QuickStructs.LinkedPtr

variable {V A B : Type} [Fintype V] [Fintype A] [DecidableEq V] [DecidableEq A] [DecidableEq B]
variable {m m' : Memory V A B} {D : Finset (Place V A)} {Z : Finset B} {l h : Place V A}
variable {a : A} {b b' : B} {c : ControlBlock A} {x y : Handle A B} {pending : Option B}

/-! ## Counting handles -/

/-- How many handles refer to the control block, without those of `D`. -/
def Memory.refsOutside (m : Memory V A B) (D : Finset (Place V A)) (b : B) : Nat :=
  (Finset.univ.filter fun l => l ∉ D ∧ m.p_cb l = some b).card

theorem refs_eq (m : Memory V A B) (b : B) : m.refs b = m.refsOutside ∅ b := by
  unfold Memory.refs Memory.refsOutside
  simp only [Finset.notMem_empty, not_false_eq_true, true_and]

/-- **One handle, and the others.** -/
theorem refsOutside_insert (hl : l ∉ D) (b : B) :
    m.refsOutside D b = m.refsOutside (insert l D) b + if m.p_cb l = some b then 1 else 0 := by
  have hsplit : (Finset.univ.filter fun k => k ∉ D ∧ m.p_cb k = some b)
      = (Finset.univ.filter fun k => k ∉ insert l D ∧ m.p_cb k = some b)
        ∪ if m.p_cb l = some b then {l} else ∅ := by
    ext k
    simp only [Finset.mem_filter, Finset.mem_univ, true_and, Finset.mem_union, Finset.mem_insert,
      not_or]
    by_cases hk : k = l
    · subst hk
      by_cases hb : m.p_cb k = some b
      · simp [hb, hl]
      · simp [hb]
    · split <;> simp [hk]
  unfold Memory.refsOutside
  rw [hsplit, Finset.card_union_of_disjoint]
  · split <;> rfl
  · rw [Finset.disjoint_left]
    intro k hk hkl
    simp only [Finset.mem_filter, Finset.mem_univ, true_and, Finset.mem_insert, not_or] at hk
    split at hkl
    · exact hk.1.1 (Finset.mem_singleton.mp hkl)
    · exact absurd hkl (Finset.notMem_empty k)

theorem refsOutside_congr (hsame : ∀ l ∉ D, m'.p_cb l = m.p_cb l) (b : B) :
    m'.refsOutside D b = m.refsOutside D b := by
  unfold Memory.refsOutside
  congr 1
  ext k
  simp only [Finset.mem_filter, Finset.mem_univ, true_and]
  exact and_congr_right fun hk => by rw [hsame k hk]

/-- Where no handle is left, none refers to the block. -/
theorem not_refers (hzero : m.refsOutside D b = 0) (hl : l ∉ D) : m.p_cb l ≠ some b := by
  intro hcb
  rw [refsOutside_insert hl, if_pos hcb] at hzero
  exact absurd hzero (Nat.succ_ne_zero _)

/-! ## Memory while references are released -/

/-- The handles of `D` have given up their references, the blocks of `Z` have none left, and
one more reference to the block `pending` is about to be given up. -/
structure Partial (m : Memory V A B) (D : Finset (Place V A)) (Z : Finset B)
    (pending : Option B) : Prop where
  unfaulted : m.faulted = false
  handles : ∀ l, l ∉ D → ∀ x, m.get l = some x →
    (x.p_cb = none ∧ x.p_obj = none)
    ∨ ∃ b c, x.p_cb = some b ∧ m.blocks b = some c ∧ x.p_obj = c.p_obj
  nodes : ∀ b c a, m.blocks b = some c → c.p_obj = some a → ∃ x, m.nodes a = some x
  adopted : ∀ b c b' c' a, m.blocks b = some c → m.blocks b' = some c' →
    c.p_obj = some a → c'.p_obj = some a → b = b'
  counts : ∀ b c, m.blocks b = some c →
    c.m_count = m.refsOutside D b + if pending = some b then 1 else 0
  positive : ∀ b c, m.blocks b = some c → b ∉ Z → 0 < c.m_count
  zero : ∀ b ∈ Z, ∃ c, m.blocks b = some c ∧ c.m_count = 0

/-- What a release leaves alone: the variables, and what is being destroyed already. Nodes
only go. -/
structure Spares (m m' : Memory V A B) (D : Finset (Place V A)) (Z : Finset B) : Prop where
  vars : m'.vars = m.vars
  nodes : ∀ a, m'.nodes a = m.nodes a ∨ m'.nodes a = none
  dying : ∀ a, Place.next a ∈ D → m'.nodes a = m.nodes a
  blocks : ∀ b ∈ Z, m'.blocks b = m.blocks b

omit [Fintype V] [Fintype A] [DecidableEq V] [DecidableEq A] [DecidableEq B] in
/-- Without new nodes there are no new links. -/
theorem Spares.links (hs : Spares m m' D Z) {a a' : A} (h : m'.Links a a') : m.Links a a' := by
  obtain ⟨x, hx, hobj⟩ := h
  rcases hs.nodes a with heq | hnone
  · exact ⟨x, heq ▸ hx, hobj⟩
  · rw [hnone] at hx
    exact absurd hx (by simp)

/-! ## One step of a release -/

omit [Fintype V] [Fintype A] [DecidableEq V] [DecidableEq A] in
/-- Where a block comes from, after the count of `b` was changed. -/
theorem setBlock_cases {k : Nat} {c' : ControlBlock A}
    (hc : (m.setBlock b (some { c with m_count := k })).blocks b' = some c') :
    (b' = b ∧ c' = { c with m_count := k }) ∨ (b' ≠ b ∧ m.blocks b' = some c') := by
  have hc' : Function.update m.blocks b (some { c with m_count := k }) b' = some c' := hc
  by_cases hbb : b' = b
  · rw [hbb, Function.update_self] at hc'
    exact Or.inl ⟨hbb, (Option.some.inj hc').symm⟩
  · rw [Function.update_of_ne hbb] at hc'
    exact Or.inr ⟨hbb, hc'⟩

omit [Fintype V] [Fintype A] [DecidableEq V] [DecidableEq A] in
/-- A change of a count keeps what a block manages. -/
theorem setBlock_obj {k : Nat} {c' : ControlBlock A} (hb : m.blocks b = some c)
    (hc : (m.setBlock b (some { c with m_count := k })).blocks b' = some c') :
    ∃ c'', m.blocks b' = some c'' ∧ c''.p_obj = c'.p_obj := by
  rcases setBlock_cases hc with ⟨rfl, rfl⟩ | ⟨_, hc'⟩
  · exact ⟨c, hb, rfl⟩
  · exact ⟨c', hc', rfl⟩

/-- The count of a block is changed, and with it what is pending and which blocks are dying. -/
theorem Partial.recount {pending pending' : Option B} {Z' : Finset B} {k : Nat}
    (h : Partial m D Z pending) (hb : m.blocks b = some c)
    (hcount : k = m.refsOutside D b + if pending' = some b then 1 else 0)
    (hpending : ∀ b', b' ≠ b → (pending' = some b' ↔ pending = some b'))
    (hpos : b ∉ Z' → 0 < k) (hzero : b ∈ Z' → k = 0) (hdying : ∀ b', b' ≠ b → (b' ∈ Z' ↔ b' ∈ Z)) :
    Partial (m.setBlock b (some { c with m_count := k })) D Z' pending' := by
  refine ⟨h.unfaulted, fun l hl x hx => ?_, fun b' c' a hc' hobj => ?_,
    fun b₁ c₁ b₂ c₂ a h₁ h₂ ho₁ ho₂ => ?_, fun b' c' hc' => ?_, fun b' c' hc' hz => ?_,
    fun b' hz => ?_⟩
  · rcases h.handles l hl x hx with hnull | ⟨b', c', hcb, hc', hobj⟩
    · exact Or.inl hnull
    · by_cases hbb : b' = b
      · subst hbb
        rw [hb] at hc'
        refine Or.inr ⟨b', _, hcb, Function.update_self .., ?_⟩
        rw [hobj, ← Option.some.inj hc']
      · exact Or.inr ⟨b', c', hcb, (Function.update_of_ne hbb ..).trans hc', hobj⟩
  · obtain ⟨c'', hc'', hobj'⟩ := setBlock_obj hb hc'
    exact h.nodes b' c'' a hc'' (hobj'.trans hobj)
  · obtain ⟨d₁, hd₁, ho₁'⟩ := setBlock_obj hb h₁
    obtain ⟨d₂, hd₂, ho₂'⟩ := setBlock_obj hb h₂
    exact h.adopted b₁ d₁ b₂ d₂ a hd₁ hd₂ (ho₁'.trans ho₁) (ho₂'.trans ho₂)
  · show c'.m_count = m.refsOutside D b' + _
    rcases setBlock_cases hc' with ⟨rfl, rfl⟩ | ⟨hbb, hc''⟩
    · exact hcount
    · rw [if_congr (hpending b' hbb) rfl rfl]
      exact h.counts b' c' hc''
  · rcases setBlock_cases hc' with ⟨rfl, rfl⟩ | ⟨hbb, hc''⟩
    · exact hpos hz
    · exact h.positive b' c' hc'' fun hmem => hz ((hdying b' hbb).mpr hmem)
  · by_cases hbb : b' = b
    · subst hbb
      exact ⟨_, Function.update_self .., hzero hz⟩
    · obtain ⟨c', hc', hz'⟩ := h.zero b' ((hdying b' hbb).mp hz)
      exact ⟨c', (Function.update_of_ne hbb ..).trans hc', hz'⟩

/-- **The `fetch_sub`.** -/
theorem partial_decrement (h : Partial m D Z (some b)) (hb : m.blocks b = some c) :
    Partial (m.setBlock b (some { c with m_count := c.m_count - 1 })) D
      (if c.m_count = 1 then insert b Z else Z) none := by
  have hcount : c.m_count = m.refsOutside D b + 1 := by
    have hc := h.counts b c hb
    rw [if_pos rfl] at hc
    exact hc
  have hbZ : b ∉ Z := by
    intro hmem
    obtain ⟨c', hc', hzero⟩ := h.zero b hmem
    rw [hb] at hc'
    rw [← Option.some.inj hc', hcount] at hzero
    exact absurd hzero (Nat.succ_ne_zero _)
  have hmemZ : ∀ b', b' ∈ (if c.m_count = 1 then insert b Z else Z) ↔
      b' ∈ Z ∨ b' = b ∧ c.m_count = 1 := by
    intro b'
    by_cases hone : c.m_count = 1
    · rw [if_pos hone, Finset.mem_insert, or_comm]
      exact or_congr_right ⟨fun hbb => ⟨hbb, hone⟩, fun hbb => hbb.1⟩
    · rw [if_neg hone]
      exact ⟨Or.inl, fun hb' => hb'.elim id fun hbb => absurd hbb.2 hone⟩
  refine h.recount hb ?_ (fun b' hbb => ?_) (fun hz => ?_) (fun hz => ?_) fun b' hbb => ?_
  · rw [if_neg (Option.some_ne_none b).symm]
    omega
  · exact iff_of_false (Option.some_ne_none b').symm fun heq => hbb (Option.some.inj heq).symm
  · rw [hmemZ b, not_or] at hz
    have hne : c.m_count ≠ 1 := fun hone => hz.2 ⟨rfl, hone⟩
    omega
  · rcases (hmemZ b).mp hz with hz | ⟨_, hone⟩
    · exact absurd hz hbZ
    · omega
  · rw [hmemZ b']
    exact or_iff_left fun heq => hbb heq.1

/-- **A handle is about to give up its reference.** -/
theorem partial_enter (h : Partial m D Z none) (hl : l ∉ D) (hx : m.get l = some x) :
    Partial m (insert l D) Z x.p_cb := by
  refine ⟨h.unfaulted, fun l' hl' => ?_, h.nodes, h.adopted, fun b c hc => ?_, h.positive, h.zero⟩
  · exact h.handles l' fun hmem => hl' (Finset.mem_insert_of_mem hmem)
  · have hfield : m.p_cb l = x.p_cb := by
      unfold Memory.p_cb
      rw [hx]
      rfl
    have hcount : c.m_count = m.refsOutside D b + 0 := h.counts b c hc
    have hsplit := refsOutside_insert (m := m) hl b
    rw [hfield] at hsplit
    omega

/-- **The block is freed.** -/
theorem partial_free (h : Partial m D Z none) (hb : m.blocks b = some c) (hz : b ∈ Z) :
    Partial (m.freeBlock b) D (Z.erase b) none := by
  have heq : m.freeBlock b = m.setBlock b none := by
    unfold Memory.freeBlock
    rw [hb]
  have hzero : m.refsOutside D b = 0 := by
    obtain ⟨c', hc', hcount⟩ := h.zero b hz
    have hrefs := h.counts b c' hc'
    rw [hcount] at hrefs
    exact (Nat.add_eq_zero_iff.mp hrefs.symm).1
  -- the blocks that are left
  have hleft : ∀ b' c', (m.setBlock b none).blocks b' = some c' →
      b' ≠ b ∧ m.blocks b' = some c' := by
    intro b' c' hc'
    have hc'' : Function.update m.blocks b none b' = some c' := hc'
    by_cases hbb : b' = b
    · rw [hbb, Function.update_self] at hc''
      exact absurd hc'' (by simp)
    · rw [Function.update_of_ne hbb] at hc''
      exact ⟨hbb, hc''⟩
  rw [heq]
  refine ⟨h.unfaulted, fun l hl x hx => ?_, fun b' c' a hc' => h.nodes b' c' a (hleft b' c' hc').2,
    fun b₁ c₁ b₂ c₂ a h₁ h₂ => h.adopted b₁ c₁ b₂ c₂ a (hleft b₁ c₁ h₁).2 (hleft b₂ c₂ h₂).2,
    fun b' c' hc' => h.counts b' c' (hleft b' c' hc').2, fun b' c' hc' hz' => ?_, fun b' hz' => ?_⟩
  · rcases h.handles l hl x hx with hnull | ⟨b', c', hcb, hc', hobj'⟩
    · exact Or.inl hnull
    · refine Or.inr ⟨b', c', hcb, (Function.update_of_ne (fun hbb => ?_) ..).trans hc', hobj'⟩
      refine not_refers hzero hl ?_
      have hget : m.get l = some x := hx
      unfold Memory.p_cb
      rw [hget, ← hbb]
      exact hcb
  · obtain ⟨hbb, hc''⟩ := hleft b' c' hc'
    exact h.positive b' c' hc'' fun hmem => hz' (Finset.mem_erase.mpr ⟨hbb, hmem⟩)
  · obtain ⟨hbb, hmem⟩ := Finset.mem_erase.mp hz'
    obtain ⟨c', hc', hcount⟩ := h.zero b' hmem
    exact ⟨c', (Function.update_of_ne hbb ..).trans hc', hcount⟩

omit [Fintype V] [Fintype A] [DecidableEq V] in
theorem freeBlock_setNode (m : Memory V A B) (a : A) (x : Option (Handle A B)) (b : B) :
    (m.setNode a x).freeBlock b = (m.freeBlock b).setNode a x := by
  unfold Memory.freeBlock Memory.setNode
  cases hb : m.blocks b <;> rfl

/-- **The node is deleted**, when no block manages it any more. -/
theorem partial_delete (h : Partial m (insert (.next a) D) Z none)
    (hnone : ∀ b c, m.blocks b = some c → c.p_obj ≠ some a) :
    Partial (m.setNode a none) D Z none := by
  have hgone : (m.setNode a none).get (.next a) = none := Function.update_self ..
  have hsame : ∀ l, l ≠ Place.next a → (m.setNode a none).get l = m.get l := by
    intro l hl
    cases l with
    | var v => rfl
    | next a' => exact Function.update_of_ne (fun ha => hl (congrArg Place.next ha)) ..
  refine ⟨h.unfaulted, fun l hl x hx => ?_, fun b c a' hc hobj => ?_, h.adopted, fun b c hc => ?_,
    h.positive, h.zero⟩
  · have hne : l ≠ .next a := by
      intro heq
      rw [heq, hgone] at hx
      exact absurd hx (by simp)
    rw [hsame l hne] at hx
    exact h.handles l (fun hmem => (Finset.mem_insert.mp hmem).elim hne hl) x hx
  · obtain ⟨x, hx⟩ := h.nodes b c a' hc hobj
    have hne : a' ≠ a := fun heq => hnone b c hc (heq ▸ hobj)
    exact ⟨x, (Function.update_of_ne hne ..).trans hx⟩
  · rw [h.counts b c hc]
    show m.refsOutside (insert (.next a) D) b + 0 = (m.setNode a none).refsOutside D b + 0
    have hcong : (m.setNode a none).refsOutside (insert (.next a) D) b
        = m.refsOutside (insert (.next a) D) b := by
      refine refsOutside_congr (fun l hl => ?_) b
      unfold Memory.p_cb
      rw [hsame l fun heq => hl (heq ▸ Finset.mem_insert_self ..)]
    by_cases hmem : Place.next a ∈ D
    · rw [← hcong, Finset.insert_eq_of_mem hmem]
    · have hsplit := refsOutside_insert (m := m.setNode a none) hmem b
      have hfield : (m.setNode a none).p_cb (.next a) = none := by
        unfold Memory.p_cb
        rw [hgone]
        rfl
      rw [hfield, if_neg (by simp)] at hsplit
      omega

/-! ## The release -/

omit [Fintype V] [Fintype A] [DecidableEq V] [DecidableEq A] [DecidableEq B] in
theorem Spares.refl (m : Memory V A B) (D : Finset (Place V A)) (Z : Finset B) : Spares m m D Z :=
  ⟨rfl, fun _ => Or.inl rfl, fun _ _ => rfl, fun _ _ => rfl⟩

omit [Fintype V] [Fintype A] in
/-- What spares more spares less. -/
theorem Spares.weaken (hs : Spares m m' (insert l D) (insert b Z)) : Spares m m' D Z :=
  ⟨hs.vars, hs.nodes, fun a ha => hs.dying a (Finset.mem_insert_of_mem ha),
    fun b' hb' => hs.blocks b' (Finset.mem_insert_of_mem hb')⟩

omit [Fintype V] [Fintype A] [DecidableEq V] [DecidableEq A] [DecidableEq B] in
theorem Spares.trans {m₂ : Memory V A B} (h : Spares m m' D Z) (h' : Spares m' m₂ D Z) :
    Spares m m₂ D Z where
  vars := h'.vars.trans h.vars
  nodes := by
    intro a
    rcases h'.nodes a with heq | hnone
    · rw [heq]
      exact h.nodes a
    · exact Or.inr hnone
  dying := fun a ha => (h'.dying a ha).trans (h.dying a ha)
  blocks := fun b hb => (h'.blocks b hb).trans (h.blocks b hb)

/-- The node of the block `b` is deleted and the block is freed, when the release of what the
node refers to has returned. -/
theorem partial_leave (h : Partial m (insert (.next a) D) Z none) (hb : m.blocks b = some c)
    (hobj : c.p_obj = some a) (hz : b ∈ Z) :
    Partial ((m.setNode a none).freeBlock b) D (Z.erase b) none := by
  rw [freeBlock_setNode]
  refine partial_delete (partial_free h hb hz) fun b' c' hc' hobj' => ?_
  unfold Memory.freeBlock at hc'
  rw [hb] at hc'
  have hc'' : Function.update m.blocks b none b' = some c' := hc'
  by_cases hbb : b' = b
  · rw [hbb, Function.update_self] at hc''
    exact absurd hc'' (by simp)
  · rw [Function.update_of_ne hbb] at hc''
    exact hbb (h.adopted b' c' b c a hc'' hb hobj' hobj)

/-- What is needed to release a reference to the block `b`: at most `k` calls, and none of the
nodes that are being deleted comes again. -/
structure MayRelease [Fintype B] (m : Memory V A B) (D : Finset (Place V A)) (Z : Finset B) (b : B)
    (c : ControlBlock A) (k : Nat) : Prop where
  part : Partial m D Z (some b)
  block : m.blocks b = some c
  acyclic : ∀ a, ¬Relation.TransGen m.Links a a
  behind : ∀ a₀ a, Place.next a₀ ∈ D → c.p_obj = some a → Relation.TransGen m.Links a₀ a
  calls : Fintype.card B < k + Z.card

/-- A function that releases a reference as `release()` should. -/
def Releases [Fintype B] (k : Nat) (release : Memory V A B → B → Memory V A B) : Prop :=
  ∀ m D Z b c, MayRelease m D Z b c k →
    Partial (release m b) D Z none ∧ Spares m (release m b) D Z

theorem MayRelease.not_zero [Fintype B] {k : Nat} (h : MayRelease m D Z b c k) : b ∉ Z := by
  intro hmem
  obtain ⟨c', hc', hzero⟩ := h.part.zero b hmem
  have hcount := h.part.counts b c' hc'
  rw [hzero, if_pos rfl] at hcount
  exact absurd hcount.symm (Nat.succ_ne_zero _)

/-- **The destructor of a node**, as far as its field. What the field refers to is behind the
node, so it is not one of those that are being deleted. -/
theorem field_spec [Fintype B] {k : Nat} {release : Memory V A B → B → Memory V A B}
    (hrel : Releases k release) (h : Partial m D Z none) (hx : m.nodes a = some x)
    (hfresh : Place.next a ∉ D) (hacyclic : ∀ a, ¬Relation.TransGen m.Links a a)
    (hreach : ∀ a₀, Place.next a₀ ∈ D → Relation.TransGen m.Links a₀ a)
    (hk : Fintype.card B < k + Z.card) : ∃ m₂, m.deleteNode release a = m₂.setNode a none
      ∧ Partial m₂ (insert (.next a) D) Z none ∧ Spares m m₂ (insert (.next a) D) Z := by
  have henter := partial_enter h hfresh hx
  unfold Memory.deleteNode
  simp only [hx]
  cases hcb : x.p_cb with
  | none =>
      rw [hcb] at henter
      exact ⟨m, rfl, henter, Spares.refl ..⟩
  | some b =>
      rw [hcb] at henter
      rcases h.handles (.next a) hfresh x hx with ⟨hnull, _⟩ | ⟨b', c, hcb', hc, hobj⟩
      · rw [hcb] at hnull
        exact absurd hnull (by simp)
      rw [hcb] at hcb'
      rw [← Option.some.inj hcb'] at hc
      have hlink : ∀ a', c.p_obj = some a' → m.Links a a' := fun a' ha' => ⟨x, hx, hobj.trans ha'⟩
      refine ⟨_, rfl, hrel m _ Z b c ⟨henter, hc, hacyclic, fun a₀ a' ha₀ ha' => ?_, hk⟩⟩
      rcases Finset.mem_insert.mp ha₀ with heq | hmem
      · rw [Place.next.inj heq]
        exact .single (hlink a' ha')
      · exact .tail (hreach a₀ hmem) (hlink a' ha')

omit [Fintype V] [Fintype A] [DecidableEq V] [DecidableEq B] in
theorem setNode_spares (ha : Place.next a ∉ D) (hs : Spares m m' D Z) :
    Spares m (m'.setNode a none) D Z := by
  refine ⟨hs.vars, fun a' => ?_, fun a' ha' => ?_, hs.blocks⟩
  · show Function.update m'.nodes a none a' = _ ∨ Function.update m'.nodes a none a' = none
    by_cases haa : a' = a
    · rw [haa, Function.update_self]
      exact Or.inr rfl
    · rw [Function.update_of_ne haa]
      exact hs.nodes a'
  · have hne : a' ≠ a := fun heq => ha (heq ▸ ha')
    exact (Function.update_of_ne hne ..).trans (hs.dying a' ha')

omit [Fintype V] [Fintype A] [DecidableEq V] [DecidableEq A] in
theorem freeBlock_eq (hb : m.blocks b = some c) : m.freeBlock b = m.setBlock b none := by
  unfold Memory.freeBlock
  rw [hb]

omit [Fintype V] [Fintype A] [DecidableEq V] [DecidableEq A] in
/-- The blocks that are set apart are not touched. -/
theorem setBlock_spares (hb : b ∉ Z) (hs : Spares m m' D Z) (x : Option (ControlBlock A)) :
    Spares m (m'.setBlock b x) D Z := by
  refine ⟨hs.vars, hs.nodes, hs.dying, fun b' hb' => ?_⟩
  have hne : b' ≠ b := fun heq => hb (heq ▸ hb')
  exact (Function.update_of_ne hne ..).trans (hs.blocks b' hb')

/--
**A release sets off what it has to, and nothing else.**

Whatever hangs on the last reference to a node is deleted with it, each node once, and what
has another reference stays. There are at most as many calls as blocks.
-/
theorem cascade [Fintype B] : ∀ k, Releases (V := V) (A := A) (B := B) k
    fun m b => m.releaseIn k b
  | 0, _, _, Z, _, _, h => by
      have hle : Z.card ≤ Fintype.card B := Finset.card_le_univ Z
      have hk := h.calls
      omega
  | k + 1, m, D, Z, b, c, h => by
      have hbZ := h.not_zero
      have hdec := partial_decrement h.part h.block
      have hself : (m.setBlock b (some { c with m_count := c.m_count - 1 })).blocks b
          = some { c with m_count := c.m_count - 1 } := Function.update_self ..
      have hspares₁ := setBlock_spares hbZ (Spares.refl m D Z)
        (some { c with m_count := c.m_count - 1 })
      have hnodes₁ : (m.setBlock b (some { c with m_count := c.m_count - 1 })).nodes = m.nodes :=
        rfl
      show Partial (m.releaseIn (k + 1) b) D Z none ∧ Spares m (m.releaseIn (k + 1) b) D Z
      rw [Memory.releaseIn]
      simp only [h.block]
      generalize m.setBlock b (some { c with m_count := c.m_count - 1 }) = m₁ at *
      split
      · rename_i hone
        rw [if_pos hone] at hdec
        have hmemb : b ∈ insert b Z := Finset.mem_insert_self b Z
        have herase : (insert b Z).erase b = Z := Finset.erase_insert hbZ
        split
        · -- the last reference to a node
          rename_i a hobj
          obtain ⟨x, hx⟩ := h.part.nodes b c a h.block hobj
          have hlinks : m₁.Links = m.Links := by
            unfold Memory.Links
            rw [hnodes₁]
          have hfresh : Place.next a ∉ D := fun hmem => h.acyclic a (h.behind a a hmem hobj)
          obtain ⟨m₂, hm₂, hpart, hspares₂⟩ := field_spec (cascade k) hdec (hnodes₁ ▸ hx) hfresh
            (hlinks ▸ h.acyclic) (fun a₀ ha₀ => hlinks ▸ h.behind a₀ a ha₀ hobj)
            (by rw [Finset.card_insert_of_notMem hbZ]; have hk := h.calls; omega)
          have hb₂ := (hspares₂.blocks b hmemb).trans hself
          have hleave := partial_leave hpart hb₂ hobj hmemb
          rw [herase] at hleave
          rw [hm₂]
          refine ⟨hleave, ?_⟩
          rw [freeBlock_eq (m := m₂.setNode a none) hb₂]
          exact setBlock_spares hbZ (setNode_spares hfresh (hspares₁.trans hspares₂.weaken)) none
        · -- the last reference to a block without an object
          have hfree := partial_free hdec hself hmemb
          rw [herase] at hfree
          refine ⟨hfree, ?_⟩
          rw [freeBlock_eq hself]
          exact setBlock_spares hbZ hspares₁ none
      · rename_i hone
        rw [if_neg hone] at hdec
        exact ⟨hdec, hspares₁⟩

end QuickStructs.LinkedPtr
