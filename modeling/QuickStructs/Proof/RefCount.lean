import QuickStructs.Proof.RefStages

/-!
# Reference counts are exact

A count goes up where a handle begins to be counted and down where one ceases to be, in
the same step, so it is always the number of handles counted. Together with the stages
this is what a client relies on: between operations the count is the number of handles
that point to the block, the deleter has been called once if there is none and not at
all otherwise, and nothing was touched after it was freed.
-/

namespace QuickStructs.SharedPtr

open Lib Tally

variable {n : Nat} {T D : Type}
variable {w w' : World n T D} {t u : T} {h o : Fin n} {b c : Nat} {p : Thread n D} {wr : Write n D}
variable {x : Handle} {m : Option Nat}

/-! ## Counts -/

/-- No handle is counted for a block that is still to be allocated. -/
theorem refs_next (hinv : Inv w) : w.refs w.blocks.next = 0 := by
  refine tally_none fun k => ?_
  cases hk : w.counted k with
  | none => rfl
  | some b =>
      obtain ⟨block, hb⟩ := hinv.counted k b hk
      have hlt := Heap.lt_next hb
      simp only [beq_eq_false_iff_ne, ne_eq, Option.some.injEq]
      omega

/-- A handle that was counted for nothing is counted for a block now. -/
theorem tally_count (hc : w.counted h = none) (b c : Nat) :
    tally (fun k => k == some c) (Function.update w.counted h (some b))
      = w.refs c + (b == c).toNat := by
  have hmove := tally_update (fun k => k == some c) w.counted h (some b)
  rw [hc] at hmove
  simp only [Option.some_beq_some, Option.none_beq_some, Bool.toNat_false, Nat.add_zero] at hmove
  exact hmove

/-- A handle that was counted for a block is counted for nothing now. -/
theorem tally_uncount (hc : w.counted h = some b) (c : Nat) :
    tally (fun k => k == some c) (Function.update w.counted h none)
      + (b == c).toNat = w.refs c := by
  have hmove := tally_update (fun k => k == some c) w.counted h none
  rw [hc] at hmove
  simp only [Option.some_beq_some, Option.none_beq_some, Bool.toNat_false, Nat.add_zero] at hmove
  exact hmove

/-! ## Pointers -/

/-- What an operation on a block leaves alone is the same of all blocks. -/
theorem map_setBlock {γ : Type} {f : ControlBlock D → ControlBlock D} (g : ControlBlock D → γ)
    (hf : ∀ block, g (f block) = g block) :
    ((w.setBlock b f).blocks.cells c).map g = (w.blocks.cells c).map g := by
  show ((w.blocks.modify b f).cells c).map g = _
  by_cases hc : c = b
  · rw [hc]
    cases hb : w.blocks.cells b with
    | none =>
        show (Function.update w.blocks.cells b ((w.blocks.cells b).map f) b).map _ = _
        rw [Function.update_self, hb]
        rfl
    | some block =>
        rw [Heap.modify_self hb]
        exact congrArg some (hf block)
  · rw [Heap.modify_of_ne hc]

theorem managedAt_setBlock {f : ControlBlock D → ControlBlock D}
    (hf : ∀ block, (f block).managed = block.managed) :
    (w.setBlock b f).managedAt c = w.managedAt c := map_setBlock ControlBlock.managed hf

theorem managedAt_create {pointer : Option Nat} {d : D} (hb : w.managedAt b = some m) :
    (w.create h pointer d).managedAt b = some m := by
  unfold World.managedAt at hb
  obtain ⟨block, hblock, hm⟩ := Option.map_eq_some_iff.mp hb
  show ((w.blocks.alloc _).cells b).map ControlBlock.managed = some m
  rw [Heap.alloc_of_some hblock, ← hm]
  rfl

theorem managedAt_create_next {pointer : Option Nat} {d : D} :
    (w.create h pointer d).managedAt w.blocks.next = some pointer := by
  show ((w.blocks.alloc _).cells w.blocks.next).map ControlBlock.managed = some pointer
  rw [Heap.alloc_self]
  rfl

/-- What a new block can be mistaken for: nothing. -/
theorem managedAt_create_cases {pointer : Option Nat} {d : D}
    (hb : (w.create h pointer d).managedAt b = some m) :
    (b = w.blocks.next ∧ m = pointer) ∨ w.managedAt b = some m := by
  by_cases hn : b = w.blocks.next
  · rw [hn, managedAt_create_next] at hb
    exact Or.inl ⟨hn, (Option.some.inj hb).symm⟩
  · refine Or.inr ?_
    rw [← hb]
    show w.managedAt b = ((w.blocks.alloc _).cells b).map ControlBlock.managed
    rw [Heap.alloc_of_ne hn]
    rfl

theorem Fits.mono (hx : Fits w x) (hm : ∀ b m, w.managedAt b = some m → w'.managedAt b = some m) :
    Fits w' x := by
  unfold Fits at hx ⊢
  split
  · rename_i hcb
    rw [hcb] at hx
    exact hx
  · rename_i b hcb
    rw [hcb] at hx
    exact hm b _ hx

/-- The handles but one are as they were, and that one fits. -/
theorem fits_setHandle {y : Option Handle} (hall : ∀ k x, w.handles k = some x → Fits w x)
    (hy : ∀ x, y = some x → Fits w x) :
    ∀ k x, Function.update w.handles h y k = some x → Fits w x := by
  intro k x hk
  by_cases hkh : k = h
  · rw [hkh, Function.update_self] at hk
    exact hy x hk
  · rw [Function.update_of_ne hkh] at hk
    exact hall k x hk

theorem inv_init (owner : Fin n → T) : Inv ({ owner := owner } : World n T D) where
  threads := fun _ => .of_idle rfl fun _ _ => rfl
  handles := fun _ _ hx => absurd hx (by simp)
  counts := fun _ _ hb => absurd hb (by simp)
  counted := fun _ _ hc => absurd hc (by simp)
  ending := fun _ _ ht => absurd ht (by simp [Thread.ending])
  stages := fun _ _ hb => absurd hb (by simp)
  adopted := fun _ _ hm => absurd hm (by simp [World.managedAt])
  distinct := fun _ _ _ hm => absurd hm (by simp [World.managedAt])
  deletions := fun _ he => absurd he (by simp)
  faultless := rfl

/-! ## Deletions -/

theorem spent_length (block : ControlBlock D) (b : Nat) : (block.spent b).length ≤ 1 := by
  unfold ControlBlock.spent
  cases block.managed <;> simp

/-- A deletion is the one of its block. -/
theorem deletion_managed (hinv : Inv w) {e : Deletion D} (he : e ∈ w.deletions) :
    w.managedAt e.block = some (some e.obj) ∧ (w.deletionsOf e.block).length ≤ 1 := by
  obtain ⟨block, hb⟩ := hinv.deletions e he
  have hmem : e ∈ w.deletionsOf e.block := List.mem_filter.mpr ⟨he, beq_self_eq_true _⟩
  have hspent : w.deletionsOf e.block = block.spent e.block := by
    cases hinv.stages e.block block hb with
    | live _ _ _ hdel _ => rw [hdel] at hmem; exact absurd hmem (by simp)
    | last _ _ _ _ _ _ _ hdel _ => rw [hdel] at hmem; exact absurd hmem (by simp)
    | disposed _ _ _ _ _ _ hdel _ => exact hdel
    | freed _ _ hdel _ => exact hdel
  rw [hspent] at hmem ⊢
  refine ⟨?_, spent_length block e.block⟩
  obtain ⟨x, hx, hex⟩ := List.mem_map.mp hmem
  unfold World.managedAt
  rw [hb, ← hex]
  exact congrArg some (Option.mem_toList.mp hx)

theorem deletions_once (hinv : Inv w) (x : Nat) :
    (w.deletions.filter fun e => e.obj == x).length ≤ 1 := by
  cases hl : w.deletions.filter fun e => e.obj == x with
  | nil => exact Nat.zero_le 1
  | cons e₀ rest =>
      have he₀ : e₀ ∈ w.deletions ∧ (e₀.obj == x) = true :=
        List.mem_filter.mp (by rw [hl]; exact List.mem_cons_self)
      obtain ⟨hm₀, hlen⟩ := deletion_managed hinv he₀.1
      rw [← hl]
      refine Nat.le_trans ?_ hlen
      unfold World.deletionsOf
      rw [← List.countP_eq_length_filter, ← List.countP_eq_length_filter]
      -- the same pointer means the same block
      refine List.countP_mono_left fun e he hex => ?_
      obtain ⟨hm, _⟩ := deletion_managed hinv he
      rw [beq_iff_eq.mp hex] at hm
      rw [beq_iff_eq.mp he₀.2] at hm₀
      exact beq_iff_eq.mpr (hinv.distinct _ _ x hm hm₀)

/-- No thread is working on the block: none disposes of it, and none changes a handle that points
to it. -/
def Settled (w : World n T D) (b : Nat) : Prop :=
  (∀ t, (w.threads t).ending ≠ some b)
    ∧ ∀ h, w.p_cb h = some b → (w.threads (w.owner h)).loose ≠ some h

/-- Between operations no thread is working on any block. -/
theorem settled_quiet (hquiet : ∀ t, w.threads t = .idle) (b : Nat) : Settled w b :=
  ⟨fun t => by simp [hquiet t, Thread.ending], fun h _ => by simp [hquiet, Thread.loose]⟩

/-- The handles that point to such a block are those that are counted for it. -/
theorem settled_counted (hinv : Inv w) (hs : Settled w b) (h : Fin n) :
    w.counted h = some b ↔ w.p_cb h = some b := by
  have hok := hinv.threads (w.owner h)
  constructor
  · intro hc
    have hloose : (w.threads (w.owner h)).loose ≠ some h := by
      intro hl
      rw [(hok.loose h hl).2] at hc
      exact absurd hc (by simp)
    rw [← hok.counted h rfl hloose]
    exact hc
  · intro hcb
    rw [hok.counted h rfl (hs.2 h hcb)]
    exact hcb

theorem settled_count (hinv : Inv w) (hs : Settled w b) {block : ControlBlock D}
    (hb : w.blocks.cells b = some block) :
    block.m_count = tally (fun c => c == some b) w.p_cb := by
  rw [hinv.counts b block hb]
  unfold World.refs tally
  refine Finset.sum_congr rfl fun h _ => congrArg Bool.toNat ?_
  rw [Bool.eq_iff_iff, beq_iff_eq, beq_iff_eq]
  exact settled_counted hinv hs h

/-- Such a block without a handle has been disposed of. -/
theorem settled_gone (hinv : Inv w) (hs : Settled w b) {block : ControlBlock D}
    (hb : w.blocks.cells b = some block) (hnone : ∀ h, w.p_cb h ≠ some b) :
    block.freed = true ∧ w.deletionsOf b = block.spent b := by
  have hzero : block.m_count = 0 := by
    rw [settled_count hinv hs hb]
    exact tally_none fun h => beq_false_of_ne (hnone h)
  cases hinv.stages b block hb with
  | live hpos _ _ _ _ => omega
  | last t _ _ ht _ _ _ _ _ | disposed t _ _ ht _ _ _ _ =>
      exact absurd (by rw [ht]; rfl) (hs.1 t)
  | freed _ hfreed hdel _ => exact ⟨hfreed, hdel⟩

/-! ## Step by step -/

variable [DecidableEq T]

/-- A step leaves the pointers of the blocks alone, or creates a block for a new one. -/
theorem managedAt_cases (hs : Moves w w') :
    ((∀ b, w'.managedAt b = w.managedAt b) ∧ w'.adopted = w.adopted)
      ∨ ∃ t h pointer d, w' = (w.create h pointer d).goto t .idle
        ∧ ∀ x ∈ pointer, x ∉ w.adopted := by
  cases hs with
  | fetchSub t h wr b block ht hc hb hpos =>
      exact Or.inl ⟨fun b' => managedAt_setBlock fun _ => rfl, rfl⟩
  | dispose t h wr b x block ht hb hobj =>
      exact Or.inl ⟨fun b' => managedAt_setBlock fun _ => rfl, rfl⟩
  | free t h wr b ht => exact Or.inl ⟨fun b' => managedAt_setBlock fun _ => rfl, rfl⟩
  | fetchAdd t h b block ht hcb hb hpos =>
      exact Or.inl ⟨fun b' => managedAt_setBlock fun _ => rfl, rfl⟩
  | create t h wr ht pointer d hfresh => exact Or.inr ⟨t, h, pointer, d, rfl, hfresh⟩
  | _ => exact Or.inl ⟨fun _ => rfl, rfl⟩

/-- A block keeps the pointer it was made for. -/
theorem managedAt_step (hs : Moves w w') (hb : w.managedAt b = some m) :
    w'.managedAt b = some m := by
  rcases managedAt_cases hs with ⟨hsame, _⟩ | ⟨t, h, pointer, d, rfl, _⟩
  · rw [hsame]
    exact hb
  · exact managedAt_create (h := h) hb

theorem block_step (hs : Moves w w') (hb : ∃ block, w.blocks.cells b = some block) :
    ∃ block, w'.blocks.cells b = some block := by
  obtain ⟨block, hb⟩ := hb
  have hm : w.managedAt b = some block.managed := by
    unfold World.managedAt
    rw [hb]
    rfl
  obtain ⟨block', hb', _⟩ := Option.map_eq_some_iff.mp (managedAt_step hs hm)
  exact ⟨block', hb'⟩

theorem handles_step (hinv : Inv w) (hs : Moves w w') :
    ∀ k x, w'.handles k = some x → Fits w' x := by
  have hall := hinv.handles
  have hmono := fun b m => managedAt_step (b := b) (m := m) hs
  intro k x hk
  cases hs with
  | copy t h o ht => exact fits_setHandle (h := h) hall (hall o) k x hk
  | move t h o ht =>
      have hk' : Function.update (Function.update w.handles h (w.handles o)) o (some {}) k
        = some x := hk
      by_cases hko : k = o
      · rw [hko, Function.update_self] at hk'
        rw [← Option.some.inj hk']
        rfl
      · rw [Function.update_of_ne hko] at hk'
        exact fits_setHandle hall (hall o) k x hk'
  | null t h wr ht y hy =>
      refine fits_setHandle (h := h) hall (fun x hx => ?_) k x hk
      rcases hy with hy | hy
      · rw [hy] at hx
        rw [← Option.some.inj hx]
        rfl
      · rw [hy] at hx
        exact absurd hx (by simp)
  | create t h wr ht pointer d hfresh =>
      have hk' : Function.update w.handles h (some ⟨pointer, some w.blocks.next⟩) k = some x := hk
      by_cases hkh : k = h
      · rw [hkh, Function.update_self] at hk'
        rw [← Option.some.inj hk']
        exact managedAt_create_next (h := h)
      · rw [Function.update_of_ne hkh] at hk'
        exact (hall k x hk').mono hmono
  | _ => exact (hall k x hk).mono hmono

theorem counts_step (hinv : Inv w) (hs : Moves w w') :
    ∀ c block, w'.blocks.cells c = some block → block.m_count = w'.refs c := by
  intro c block hblock
  have hcounts := hinv.counts
  cases hs with
  | fetchSub t h wr b block₀ ht hc hb hpos =>
      have hrefs := tally_uncount hc c
      show block.m_count = tally (fun k => k == some c) (Function.update w.counted h none)
      rcases Heap.modify_cases hblock with ⟨block₁, rfl, hb₁, rfl⟩ | ⟨hne, hc₁⟩
      · have hold := hcounts c block₁ hb₁
        rw [beq_self_eq_true, Bool.toNat_true] at hrefs
        show block₁.m_count - 1 = _
        omega
      · have hold := hcounts c block hc₁
        rw [beq_false_of_ne (Ne.symm hne), Bool.toNat_false] at hrefs
        omega
  | fetchAdd t h b block₀ ht hcb hb hpos =>
      obtain ⟨_, hc⟩ := (hinv.threads t).loose h (by rw [ht]; rfl)
      have hrefs := tally_count hc b c
      show block.m_count = tally (fun k => k == some c) (Function.update w.counted h (some b))
      rcases Heap.modify_cases hblock with ⟨block₁, rfl, hb₁, rfl⟩ | ⟨hne, hc₁⟩
      · have hold := hcounts c block₁ hb₁
        rw [beq_self_eq_true, Bool.toNat_true] at hrefs
        show block₁.m_count + 1 = _
        omega
      · have hold := hcounts c block hc₁
        rw [beq_false_of_ne (Ne.symm hne), Bool.toNat_false] at hrefs
        omega
  | dispose t h wr b x block₀ ht hb hobj =>
      rcases Heap.modify_cases hblock with ⟨block₁, rfl, hb₁, rfl⟩ | ⟨_, hc₁⟩
      · exact hcounts c block₁ hb₁
      · exact hcounts c block hc₁
  | free t h wr b ht =>
      rcases Heap.modify_cases hblock with ⟨block₁, rfl, hb₁, rfl⟩ | ⟨_, hc₁⟩
      · exact hcounts c block₁ hb₁
      · exact hcounts c block hc₁
  | move t h o ht =>
      -- the one handle is counted now in place of the other
      obtain ⟨_, hc, hsrc, _⟩ := (hinv.threads t).before_write ht
      obtain ⟨hne, _⟩ := hsrc o rfl
      rw [hcounts c block hblock]
      have hgive := tally_update (fun k => k == some c) w.counted h (w.counted o)
      have htake := tally_update (fun k => k == some c)
        (Function.update w.counted h (w.counted o)) o none
      rw [hc] at hgive
      rw [Function.update_of_ne hne] at htake
      simp only [Option.none_beq_some, Bool.toNat_false, Nat.add_zero] at hgive htake
      show w.refs c = tally (fun k => k == some c)
        (Function.update (Function.update w.counted h (w.counted o)) o none)
      unfold World.refs
      omega
  | create t h wr ht pointer d hfresh =>
      obtain ⟨_, hc⟩ := (hinv.threads t).loose h (by rw [ht]; rfl)
      have hrefs := tally_count hc w.blocks.next c
      show block.m_count
        = tally (fun k => k == some c) (Function.update w.counted h (some w.blocks.next))
      rcases Heap.alloc_cases hblock with ⟨hcn, rfl⟩ | hc₁
      · rw [hcn, refs_next hinv, beq_self_eq_true] at hrefs
        rw [hcn, hrefs]
        rfl
      · have hold := hcounts c block hc₁
        rw [beq_false_of_ne (Nat.ne_of_gt (Heap.lt_next hc₁)), Bool.toNat_false] at hrefs
        omega
  | _ => exact hcounts c block hblock

theorem counted_step (hinv : Inv w) (hs : Moves w w') :
    ∀ k c, w'.counted k = some c → ∃ block, w'.blocks.cells c = some block := by
  intro k c hk
  have hall : ∀ k, w.counted k = some c → ∃ block, w'.blocks.cells c = some block :=
    fun k hk => block_step hs (hinv.counted k c hk)
  -- the handle whose count changes, and the others
  have hset : ∀ (f : Fin n → Option Nat) (h : Fin n) (y : Option Nat),
      Function.update f h y k = some c → y = some c ∨ f k = some c := by
    intro f h y hy
    by_cases hkh : k = h
    · rw [hkh, Function.update_self] at hy
      exact Or.inl hy
    · rw [Function.update_of_ne hkh] at hy
      exact Or.inr hy
  cases hs with
  | fetchSub t h wr b block ht hc hb hpos =>
      rcases hset _ _ _ hk with hy | hy
      · exact absurd hy (by simp)
      · exact hall k hy
  | fetchAdd t h b block ht hcb hb hpos =>
      rcases hset _ _ _ hk with hy | hy
      · rw [← Option.some.inj hy]
        exact ⟨_, Heap.modify_self hb⟩
      · exact hall k hy
  | move t h o ht =>
      rcases hset _ _ _ hk with hy | hy
      · exact absurd hy (by simp)
      · rcases hset _ _ _ hy with hy | hy
        · exact hall o hy
        · exact hall k hy
  | create t h wr ht pointer d hfresh =>
      rcases hset _ _ _ hk with hy | hy
      · rw [← Option.some.inj hy]
        exact ⟨_, Heap.alloc_self⟩
      · exact hall k hy
  | _ => exact hall k hk

theorem ending_step (hinv : Inv w) (hs : Moves w w') :
    ∀ u c, (w'.threads u).ending = some c → ∃ block, w'.blocks.cells c = some block := by
  intro u c hu
  have hall : (w.threads u).ending = some c → ∃ block, w'.blocks.cells c = some block :=
    fun hu => block_step hs (hinv.ending u c hu)
  -- the thread that moves, and the others
  have hset : ∀ (t : T) (p : Thread n D), (Function.update w.threads t p u).ending = some c →
      p.ending ≠ some c ∨ p.ending = (w.threads t).ending →
        ∃ block, w'.blocks.cells c = some block := by
    intro t p hp hkeep
    by_cases hut : u = t
    · rw [hut, Function.update_self] at hp
      rcases hkeep with hne | hsame
      · exact absurd hp hne
      · refine hall ?_
        rw [hut, ← hsame]
        exact hp
    · rw [Function.update_of_ne hut] at hp
      exact hall hp
  cases hs with
  | stay => exact hall hu
  | give h t hidle => exact hall hu
  | fetchSub t h wr b block ht hc hb hpos =>
      by_cases hbc : b = c
      · rw [← hbc]
        exact ⟨_, Heap.modify_self hb⟩
      · refine hset t _ hu (Or.inl ?_)
        split
        · exact fun hp => hbc (Option.some.inj hp)
        · simp [Thread.ending]
  | dispose t h wr b x block ht hb hobj => exact hset t _ hu (Or.inr (by rw [ht]; rfl))
  | keep t h wr b block ht hb hobj => exact hset t _ hu (Or.inr (by rw [ht]; rfl))
  | start t h wr _ _ _ => exact hset t _ hu (Or.inl (by simp [Thread.ending]))
  | construct t h wr _ _ _ _ => exact hset t _ hu (Or.inl (by simp [Thread.ending]))
  | skip t h wr _ _ => exact hset t _ hu (Or.inl (by simp [Thread.ending]))
  | free t h wr b _ => exact hset t _ hu (Or.inl (by simp [Thread.ending]))
  | copy t h o _ => exact hset t _ hu (Or.inl (by simp [Thread.ending]))
  | move t h o _ => exact hset t _ hu (Or.inl (by simp [Thread.ending]))
  | null t h wr _ x _ => exact hset t _ hu (Or.inl (by simp [Thread.ending]))
  | create t h wr _ pointer d _ => exact hset t _ hu (Or.inl (by simp [Thread.ending]))
  | fetchAdd t h b block _ _ _ _ => exact hset t _ hu (Or.inl (by simp [Thread.ending]))
  | addNull t h _ _ => exact hset t _ hu (Or.inl (by simp [Thread.ending]))

theorem adopted_step (hinv : Inv w) (hs : Moves w w') :
    ∀ b x, w'.managedAt b = some (some x) → x ∈ w'.adopted := by
  intro b x hb
  rcases managedAt_cases hs with ⟨hsame, hadopted⟩ | ⟨t, h, pointer, d, rfl, _⟩
  · rw [hsame] at hb
    rw [hadopted]
    exact hinv.adopted b x hb
  · show x ∈ pointer.toList ++ w.adopted
    rcases managedAt_create_cases (h := h) (d := d) hb with ⟨_, hx⟩ | hb
    · rw [← hx]
      exact List.mem_append_left _ (by simp)
    · exact List.mem_append_right _ (hinv.adopted b x hb)

theorem distinct_step (hinv : Inv w) (hs : Moves w w') :
    ∀ b c x, w'.managedAt b = some (some x) → w'.managedAt c = some (some x) → b = c := by
  intro b c x hb hc
  rcases managedAt_cases hs with ⟨hsame, _⟩ | ⟨t, h, pointer, d, rfl, hfresh⟩
  · rw [hsame] at hb hc
    exact hinv.distinct b c x hb hc
  · rcases managedAt_create_cases (h := h) (d := d) hb with ⟨hbn, hx⟩ | hb
    · rcases managedAt_create_cases (h := h) (d := d) hc with ⟨hcn, _⟩ | hc
      · rw [hbn, hcn]
      · exact absurd (hinv.adopted c x hc) (hfresh x hx.symm)
    · rcases managedAt_create_cases (h := h) (d := d) hc with ⟨_, hx⟩ | hc
      · exact absurd (hinv.adopted b x hb) (hfresh x hx.symm)
      · exact hinv.distinct b c x hb hc

theorem deletions_step (hinv : Inv w) (hs : Moves w w') :
    ∀ e ∈ w'.deletions, ∃ block, w'.blocks.cells e.block = some block := by
  intro e he
  have hall : e ∈ w.deletions → ∃ block, w'.blocks.cells e.block = some block :=
    fun he => block_step hs (hinv.deletions e he)
  cases hs with
  | dispose t h wr b x block ht hb hobj =>
      rcases List.mem_append.mp he with he | he
      · exact hall he
      · rw [List.mem_singleton.mp he]
        exact ⟨_, Heap.modify_self hb⟩
  | _ => exact hall he

/-- **Every step keeps the invariant.** -/
theorem inv_step (hinv : Inv w) (hs : Moves w w') : Inv w' where
  threads := threads_step hinv hs
  handles := handles_step hinv hs
  counts := counts_step hinv hs
  counted := counted_step hinv hs
  ending := ending_step hinv hs
  stages := stages_step hinv hs
  adopted := adopted_step hinv hs
  distinct := distinct_step hinv hs
  deletions := deletions_step hinv hs
  faultless := by cases hs <;> exact hinv.faultless

theorem inv_reachable [Inhabited D] (h : Reachable w) : Inv w := by
  obtain ⟨owner, h⟩ := h
  exact h.invariant (inv_init owner) fun _ _ _ _ hi hs => inv_step hi (step_moves hi hs)

/-! ## What a client relies on -/

structure Exact (w : World n T D) : Prop where
  /-- No operation touched a block that was freed. -/
  safe : w.faulted = false
  /-- A handle whose thread is not just changing it: its block is there, with the pointer, and
  the deleter has not been called. -/
  handle : ∀ h x, w.handles h = some x → (w.threads (w.owner h)).loose ≠ some h →
    (x.p_cb = none → x.p_obj = none) ∧ ∀ b, x.p_cb = some b →
      ∃ block, w.blocks.cells b = some block ∧ block.freed = false ∧ block.p_obj = x.p_obj
        ∧ w.deletionsOf b = []
  /-- The count of a block on which no thread is working is the number of handles that point to
  it. Between operations these are all the blocks (`settled_quiet`). -/
  count : ∀ b block, Settled w b → w.blocks.cells b = some block →
    block.m_count = tally (fun c => c == some b) w.p_cb
  /-- Such a block without a handle has been disposed of. -/
  gone : ∀ b block, Settled w b → w.blocks.cells b = some block →
    (∀ h, w.p_cb h ≠ some b) → block.freed = true ∧ w.deletionsOf b = block.spent b
  /-- The deleter of a block is called on its pointer and at most once. -/
  deletions : ∀ b block, w.blocks.cells b = some block →
    w.deletionsOf b = [] ∨ w.deletionsOf b = block.spent b
  /-- No pointer is deleted twice. -/
  once : ∀ x, (w.deletions.filter fun e => e.obj == x).length ≤ 1

/--
**Reference counts are exact.**

In every state that threads with handles of their own reach, whatever operations they
make and however those interleave.
-/
theorem shared_ptr_exact [Inhabited D] (w : World n T D) (hr : Reachable w) : Exact w := by
  have hinv := inv_reachable hr
  refine ⟨hinv.faultless, fun h x hx hloose => ?_, fun b block hs hb => settled_count hinv hs hb,
    fun b block hs hb hnone => settled_gone hinv hs hb hnone, fun b block hb => ?_,
    deletions_once hinv⟩
  · have hfits := hinv.handles h x hx
    unfold Fits at hfits
    refine ⟨fun hnull => ?_, fun b hcb => ?_⟩
    · rw [hnull] at hfits
      exact hfits
    · rw [hcb] at hfits
      have hc : w.counted h = some b := by
        rw [(hinv.threads (w.owner h)).counted h rfl hloose, World.p_cb, hx]
        exact hcb
      obtain ⟨block, hb, hpos⟩ := pos_of_counted hinv hc
      refine ⟨block, hb, ?_⟩
      have hm : w.managedAt b = some block.managed := by
        unfold World.managedAt
        rw [hb]
        rfl
      have hobj' : block.managed = x.p_obj := Option.some.inj (hm.symm.trans hfits)
      cases hinv.stages b block hb with
      | live _ hfreed hobj hdel _ => exact ⟨hfreed, hobj.trans hobj', hdel⟩
      | last _ _ _ _ hzero _ _ _ _ => omega
      | disposed _ _ _ _ hzero _ _ _ => omega
      | freed hzero _ _ _ => omega
  · cases hinv.stages b block hb with
    | live _ _ _ hdel _ => exact Or.inl hdel
    | last _ _ _ _ _ _ _ hdel _ => exact Or.inl hdel
    | disposed _ _ _ _ _ _ hdel _ => exact Or.inr hdel
    | freed _ _ hdel _ => exact Or.inr hdel

/-- Two threads drop the last two references of a block at the same time: thread 0 counts
down first, and thread 1 calls the deleter. -/
theorem shared_ptr_exact_two :
    Exact ((Transition.exec step ({ owner := fun h => h } : World 2 (Fin 2) Nat)
      [.give 1 0, .call 0 (.deleterCtor 0 (some 7) 3), .advance 0, .call 0 (.copyCtor 1 0),
        .advance 0, .advance 0, .give 1 1, .call 0 (.reset 0), .call 1 (.dtor 1), .advance 0,
        .advance 1, .advance 1, .advance 0, .advance 1, .advance 1]).get (by decide)) :=
  shared_ptr_exact _ ⟨_, Transition.exec_reach _ (Option.some_get _).symm⟩

end QuickStructs.SharedPtr
