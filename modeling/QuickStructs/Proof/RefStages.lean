import QuickStructs.Proof.RefThreads

/-!
# From live to freed

A block changes only under the thread that counts up or down on it or has it for
itself. So for every kind of step there is one block to look at, if any, and the stages
of the others are framed.
-/

namespace QuickStructs.SharedPtr

open Lib

variable {n : Nat} {T D : Type}
variable {w w' : World n T D} {t u : T} {h : Fin n} {b c : Nat} {p : Thread n D} {wr : Write n D}

/-! ## The other blocks -/

/-- A block that the step does not concern stays in its stage. -/
theorem Stage.frame {block : ControlBlock D} (hs : Stage w c block)
    (hdel : w'.deletionsOf c = w.deletionsOf c)
    (hthreads : ∀ u, (w'.threads u).ending = some c ∨ (w.threads u).ending = some c →
      w'.threads u = w.threads u) : Stage w' c block := by
  have hback : ∀ u, (w'.threads u).ending = some c → (w.threads u).ending = some c := by
    intro u hu
    rw [← hthreads u (Or.inl hu)]
    exact hu
  cases hs with
  | live hpos hfreed hobj hd hend =>
      exact .live hpos hfreed hobj (hdel.trans hd) fun u hu => hend u (hback u hu)
  | last t h wr ht hzero hfreed hobj hd hend =>
      refine .last t h wr ?_ hzero hfreed hobj (hdel.trans hd) fun u hu => hend u (hback u hu)
      rw [hthreads t (Or.inr (by rw [ht]; rfl))]
      exact ht
  | disposed t h wr ht hzero hfreed hd hend =>
      refine .disposed t h wr ?_ hzero hfreed (hdel.trans hd) fun u hu => hend u (hback u hu)
      rw [hthreads t (Or.inr (by rw [ht]; rfl))]
      exact ht
  | freed hzero hfreed hd hend =>
      exact .freed hzero hfreed (hdel.trans hd) fun u hu => hend u (hback u hu)

theorem deletionsOf_append (e : Deletion D) : ({ w with deletions := w.deletions ++ [e] } :
    World n T D).deletionsOf c = w.deletionsOf c ++ if e.block = c then [e] else [] := by
  unfold World.deletionsOf
  rw [List.filter_append, List.filter_singleton]
  by_cases he : e.block = c
  · simp [he]
  · simp [he, beq_false_of_ne he]

/-- Another reference to a live block. -/
theorem stages_fetchAdd {block : ControlBlock D} (hs : Stage w b block)
    (hpos : 0 < block.m_count) : Stage w b { block with m_count := block.m_count + 1 } := by
  cases hs with
  | live _ hfreed hobj hdel hend => exact .live (Nat.succ_pos _) hfreed hobj hdel hend
  | last _ _ _ _ hzero _ _ _ _ => omega
  | disposed _ _ _ _ hzero _ _ _ => omega
  | freed hzero _ _ _ => omega

variable [DecidableEq T]

/-- A thread that neither comes from the block nor goes to it does not concern it. -/
theorem ending_goto (hp : p.ending ≠ some c) (ht : (w.threads t).ending ≠ some c) :
    ∀ u, ((w.goto t p).threads u).ending = some c ∨ (w.threads u).ending = some c →
      (w.goto t p).threads u = w.threads u := by
  intro u hu
  by_cases hut : u = t
  · rw [hut, goto_self] at hu
    rcases hu with hu | hu
    · exact absurd hu hp
    · exact absurd hu ht
  · exact Function.update_of_ne hut ..

/-- The stage of a block, while a thread goes on elsewhere. -/
theorem Stage.goto {block : ControlBlock D} (hs : Stage w c block) (hp : p.ending ≠ some c)
    (ht : (w.threads t).ending ≠ some c) (hthreads : w'.threads = w.threads)
    (hdel : w'.deletionsOf c = w.deletionsOf c) : Stage (w'.goto t p) c block := by
  refine hs.frame hdel fun u hu => ?_
  show Function.update w'.threads t p u = w.threads u
  rw [hthreads]
  refine ending_goto hp ht u ?_
  have hu' : (Function.update w'.threads t p u).ending = some c
    ∨ (w.threads u).ending = some c := hu
  rw [hthreads] at hu'
  exact hu'

/-- A step between points where the thread has no block for itself. -/
theorem Stage.pass {block : ControlBlock D} (hs : Stage w c block) (hp : p.ending = none)
    (ht : (w.threads t).ending = none) (hthreads : w'.threads = w.threads)
    (hdel : w'.deletionsOf c = w.deletionsOf c) : Stage (w'.goto t p) c block :=
  hs.goto (by rw [hp]; simp) (by rw [ht]; simp) hthreads hdel

/-- The only thread that had the block is at `p` now. -/
theorem ending_self (hend : ∀ u, (w.threads u).ending = some c → u = t) :
    ∀ u, ((w.goto t p).threads u).ending = some c → u = t := by
  intro u hu
  by_cases hut : u = t
  · exact hut
  · refine hend u ?_
    rw [← hu]
    exact congrArg Thread.ending (Function.update_of_ne hut ..).symm

/-! ## Step by step -/

theorem stages_fetchSub {block : ControlBlock D} (hinv : Inv w)
    (hb : w.blocks.cells b = some block) (hpos : 0 < block.m_count) :
    Stage (w.goto t (if block.m_count = 1 then .dispose b h wr else .write h wr)) b
      { block with m_count := block.m_count - 1 } := by
  cases hinv.stages b block hb with
  | live _ hfreed hobj hdel hend =>
      split
      · rename_i hone
        refine .last t h wr (goto_self ..) ?_ hfreed hobj hdel
          (ending_self fun u hu => absurd hu (hend u))
        show block.m_count - 1 = 0
        omega
      · rename_i hone
        refine .live ?_ hfreed hobj hdel fun u hu => ?_
        · show 0 < block.m_count - 1
          omega
        · have hut : u = t := ending_self (fun u hu => absurd hu (hend u)) u hu
          rw [hut, goto_self] at hu
          exact absurd hu (by simp [Thread.ending])
  | last _ _ _ _ hzero _ _ _ _ => omega
  | disposed _ _ _ _ hzero _ _ _ => omega
  | freed hzero _ _ _ => omega

/-- The deleter is called on the pointer that the block was made for. -/
theorem stages_dispose {block : ControlBlock D} {x : Nat} (hinv : Inv w)
    (ht : w.threads t = .dispose b h wr) (hb : w.blocks.cells b = some block)
    (hobj : block.p_obj = some x) :
    Stage { w.goto t (.free b h wr) with deletions := w.deletions ++ [⟨b, x, block.deleter⟩] } b
      { block with p_obj := none } := by
  obtain ⟨block₁, hb₁, hzero, hfreed, hman, hdel, hend⟩ := stage_of_dispose hinv ht
  have heq : block = block₁ := Option.some.inj (hb.symm.trans hb₁)
  subst heq
  refine .disposed t h wr (goto_self ..) hzero hfreed ?_ (ending_self hend)
  refine (deletionsOf_append (w := w) (c := b) ⟨b, x, block.deleter⟩).trans ?_
  rw [hdel, if_pos rfl, ControlBlock.spent]
  show [] ++ [_] = (block.managed.toList).map _
  rw [← hman, hobj]
  rfl

/-- There is nothing to delete. -/
theorem stages_keep {block : ControlBlock D} (hinv : Inv w) (ht : w.threads t = .dispose b h wr)
    (hb : w.blocks.cells b = some block) (hobj : block.p_obj = none) :
    Stage (w.goto t (.free b h wr)) b block := by
  obtain ⟨block₁, hb₁, hzero, hfreed, hman, hdel, hend⟩ := stage_of_dispose hinv ht
  have heq : block = block₁ := Option.some.inj (hb.symm.trans hb₁)
  subst heq
  refine .disposed t h wr (goto_self ..) hzero hfreed ?_ (ending_self hend)
  rw [ControlBlock.spent, ← hman, hobj]
  exact hdel

theorem stages_free {block : ControlBlock D} (hinv : Inv w) (ht : w.threads t = .free b h wr)
    (hb : w.blocks.cells b = some block) :
    Stage (w.goto t (.write h wr)) b { block with freed := true } := by
  obtain ⟨block₁, hb₁, hzero, _, hdel, hend⟩ := stage_of_free hinv ht
  have heq : block = block₁ := Option.some.inj (hb.symm.trans hb₁)
  subst heq
  -- the thread that had the block has gone on, and no other had it
  refine .freed hzero rfl hdel fun u hu => ?_
  rw [ending_self hend u hu, goto_self] at hu
  exact absurd hu (by simp [Thread.ending])

/-- Nothing has been said yet about a new block. -/
theorem stages_create (hinv : Inv w) (pointer : Option Nat) (d : D) :
    Stage (w.goto t .idle) w.blocks.next
      { deleter := d, p_obj := pointer, managed := pointer } := by
  have hnone : ∀ block, w.blocks.cells w.blocks.next ≠ some block := by
    intro block hb
    exact absurd (Heap.lt_next hb) (Nat.lt_irrefl _)
  refine .live Nat.zero_lt_one rfl rfl ?_ fun u hu => ?_
  · refine List.filter_eq_nil_iff.mpr fun e he hen => ?_
    obtain ⟨block, hb⟩ := hinv.deletions e he
    rw [beq_iff_eq.mp hen] at hb
    exact hnone block hb
  · by_cases hut : u = t
    · rw [hut, goto_self] at hu
      exact absurd hu (by simp [Thread.ending])
    · have hu' : (Function.update w.threads t .idle u).ending = some w.blocks.next := hu
      rw [Function.update_of_ne hut] at hu'
      obtain ⟨block, hb⟩ := hinv.ending u _ hu'
      exact hnone block hb

theorem stages_step (hinv : Inv w) (hs : Moves w w') :
    ∀ c block, w'.blocks.cells c = some block → Stage w' c block := by
  intro c block hblock
  have hstages := hinv.stages
  cases hs with
  | stay => exact hstages c block hblock
  | give h t hidle => exact (hstages c block hblock).frame rfl fun _ _ => rfl
  | start t h wr hidle how hsrc =>
      exact (hstages c block hblock).pass rfl (by rw [hidle]; rfl) rfl rfl
  | construct t h wr hidle how hsrc hnone =>
      exact (hstages c block hblock).pass rfl (by rw [hidle]; rfl) rfl rfl
  | skip t h wr ht hcb =>
      exact (hstages c block hblock).pass rfl (by rw [ht]; rfl) rfl rfl
  | fetchSub t h wr b block₀ ht hc hb hpos =>
      rcases Heap.modify_cases hblock with ⟨block₁, rfl, hb₁, rfl⟩ | ⟨hne, hc₁⟩
      · have heq : block₀ = block₁ := Option.some.inj (hb.symm.trans hb₁)
        subst heq
        exact (stages_fetchSub hinv hb hpos).frame rfl fun _ _ => rfl
      · -- the thread may have taken a block for itself, but not this one
        refine (hstages c block hc₁).goto ?_ (by rw [ht]; simp [Thread.ending]) rfl rfl
        intro hend
        split at hend
        · exact hne (Option.some.inj hend).symm
        · exact absurd hend (by simp [Thread.ending])
  | dispose t h wr b x block₀ ht hb hobj =>
      rcases Heap.modify_cases hblock with ⟨block₁, rfl, hb₁, rfl⟩ | ⟨hne, hc₁⟩
      · have heq : block₀ = block₁ := Option.some.inj (hb.symm.trans hb₁)
        subst heq
        exact (stages_dispose hinv ht hb hobj).frame rfl fun _ _ => rfl
      · have hdel := deletionsOf_append (w := w) (c := c) ⟨b, x, block₀.deleter⟩
        rw [if_neg (Ne.symm hne), List.append_nil] at hdel
        have hother : (w.threads t).ending ≠ some c := by
          rw [ht]
          exact fun hbc => hne (Option.some.inj hbc).symm
        refine (hstages c block hc₁).frame hdel ?_
        exact ending_goto (p := .free b h wr) (fun hbc => hne (Option.some.inj hbc).symm) hother
  | keep t h wr b block₀ ht hb hobj =>
      by_cases hcb : c = b
      · subst hcb
        have heq : block₀ = block := Option.some.inj (hb.symm.trans hblock)
        subst heq
        exact stages_keep hinv ht hb hobj
      · refine (hstages c block hblock).goto (fun hbc => hcb (Option.some.inj hbc).symm) ?_ rfl rfl
        rw [ht]
        exact fun hbc => hcb (Option.some.inj hbc).symm
  | free t h wr b ht =>
      rcases Heap.modify_cases hblock with ⟨block₁, rfl, hb₁, rfl⟩ | ⟨hne, hc₁⟩
      · exact (stages_free hinv ht hb₁).frame rfl fun _ _ => rfl
      · refine (hstages c block hc₁).goto (by simp [Thread.ending]) ?_ rfl rfl
        rw [ht]
        exact fun hbc => hne (Option.some.inj hbc).symm
  | copy t h o ht =>
      exact (hstages c block hblock).pass rfl (by rw [ht]; rfl) rfl rfl
  | move t h o ht =>
      exact (hstages c block hblock).pass rfl (by rw [ht]; rfl) rfl rfl
  | null t h wr ht x hx =>
      exact (hstages c block hblock).pass rfl (by rw [ht]; rfl) rfl rfl
  | create t h wr ht pointer d hfresh =>
      rcases Heap.alloc_cases hblock with ⟨rfl, rfl⟩ | hc₁
      · exact (stages_create hinv pointer d).frame rfl fun _ _ => rfl
      · exact (hstages c block hc₁).pass rfl (by rw [ht]; rfl) rfl rfl
  | fetchAdd t h b block₀ ht hcb hb hpos =>
      have hother : (w.threads t).ending = none := by rw [ht]; rfl
      rcases Heap.modify_cases hblock with ⟨block₁, rfl, hb₁, rfl⟩ | ⟨_, hc₁⟩
      · have heq : block₀ = block₁ := Option.some.inj (hb.symm.trans hb₁)
        subst heq
        exact (stages_fetchAdd (hstages c block₀ hb) hpos).pass rfl hother rfl rfl
      · exact (hstages c block hc₁).pass rfl hother rfl rfl
  | addNull t h ht hcb =>
      exact (hstages c block hblock).pass rfl (by rw [ht]; rfl) rfl rfl

end QuickStructs.SharedPtr
