import QuickStructs.Proof.RefSteps

/-!
# Every thread knows its handles

A step of a thread leaves the handles of all other threads alone, so what those know of
their handles needs no look at what the step does. What the thread itself knows is
carried from point to point of its operation: which handle is loose, and that every
other one is counted for the block it points to.
-/

namespace QuickStructs.SharedPtr

open Lib

variable {n : Nat} {T D : Type}
variable {w w' : World n T D} {t u : T} {h o : Fin n} {b : Nat} {p : Thread n D} {wr : Write n D}

/-! ## Other threads -/

/-- Only thread `t` acts: the other threads and their handles stay as they are. -/
structure Acts (w : World n T D) (t : T) (w' : World n T D) : Prop where
  owner : w'.owner = w.owner
  threads : ∀ u, u ≠ t → w'.threads u = w.threads u
  handles : ∀ h, w.owner h ≠ t → w'.handles h = w.handles h
  counted : ∀ h, w.owner h ≠ t → w'.counted h = w.counted h

theorem Acts.p_cb (hacts : Acts w t w') (hh : w.owner h ≠ t) : w'.p_cb h = w.p_cb h := by
  unfold World.p_cb
  rw [hacts.handles h hh]

/-- **The other threads.** -/
theorem ThreadOk.frame (hok : ThreadOk w u) (hacts : Acts w t w') (hu : u ≠ t) :
    ThreadOk w' u := by
  have hthread := hacts.threads u hu
  -- the handles of `u` are not handles of `t`
  have hother : ∀ h, w.owner h = u → w.owner h ≠ t := by
    intro h how
    rw [how]
    exact hu
  refine ⟨fun h hl => ?_, fun h how hl => ?_, fun h wr hw => ?_, fun h ha => ?_⟩
  · rw [hthread] at hl
    obtain ⟨how, hc⟩ := hok.loose h hl
    rw [hacts.owner, hacts.counted h (hother h how)]
    exact ⟨how, hc⟩
  · rw [hthread] at hl
    rw [hacts.owner] at how
    rw [hacts.counted h (hother h how), hacts.p_cb (hother h how)]
    exact hok.counted h how hl
  · rw [hthread] at hw
    rw [hacts.owner]
    exact hok.writes h wr hw
  · rw [hthread] at ha
    obtain ⟨how, _⟩ := hok.loose h (by rw [ha]; rfl)
    obtain ⟨o, hne, hoo, ho⟩ := hok.adding h ha
    refine ⟨o, hne, ?_, ?_⟩
    · rw [hacts.owner]
      exact hoo
    · rw [hacts.p_cb (hother o hoo), hacts.p_cb (hother h how)]
      exact ho

/-- A thread between two operations. -/
theorem ThreadOk.of_idle (ht : w.threads t = .idle)
    (hcounted : ∀ h, w.owner h = t → w.counted h = w.p_cb h) : ThreadOk w t where
  loose := by
    intro h hl
    rw [ht] at hl
    exact absurd hl (by simp [Thread.loose])
  counted := fun h how _ => hcounted h how
  writes := by
    intro h wr hw
    rw [ht] at hw
    exact absurd hw (by simp [Thread.writes])
  adding := by
    intro h ha
    rw [ht] at ha
    exact absurd ha (by simp)

/-- A thread before it writes to `h`, past the release. -/
theorem ThreadOk.of_writes (hw : (w.threads t).writes = some (h, wr))
    (hl : (w.threads t).loose = some h) (how : w.owner h = t) (hc : w.counted h = none)
    (hsrc : ∀ o, wr.source = some o → o ≠ h ∧ w.owner o = t)
    (hcounted : ∀ k, k ≠ h → w.owner k = t → w.counted k = w.p_cb k) : ThreadOk w t where
  loose := by
    intro k hk
    rw [hl] at hk
    rw [← Option.some.inj hk]
    exact ⟨how, hc⟩
  counted := by
    intro k hko hk
    refine hcounted k (fun hkh => hk ?_) hko
    rw [hl, hkh]
  writes := by
    intro k wr' hk
    rw [hw] at hk
    obtain ⟨hkh, hwr⟩ := Prod.mk.inj (Option.some.inj hk)
    rw [← hkh, ← hwr]
    exact ⟨how, hsrc⟩
  adding := by
    intro k hk
    rw [hk] at hw
    exact absurd hw (by simp [Thread.writes])

/-- What a thread between two operations knows of its handles. -/
theorem ThreadOk.counted_idle (hok : ThreadOk w t) (ht : (w.threads t).loose = none)
    (how : w.owner h = t) : w.counted h = w.p_cb h :=
  hok.counted h how (by rw [ht]; simp)

/-- What a thread knows before it writes to `h`. -/
theorem ThreadOk.before_write (hok : ThreadOk w t) (ht : w.threads t = .write h wr) :
    w.owner h = t ∧ w.counted h = none ∧ (∀ o, wr.source = some o → o ≠ h ∧ w.owner o = t)
      ∧ ∀ k, k ≠ h → w.owner k = t → w.counted k = w.p_cb k := by
  obtain ⟨how, hc⟩ := hok.loose h (by rw [ht]; rfl)
  obtain ⟨_, hsrc⟩ := hok.writes h wr (by rw [ht]; rfl)
  refine ⟨how, hc, hsrc, fun k hkh hk => hok.counted k hk ?_⟩
  rw [ht]
  intro hl
  exact hkh (Option.some.inj hl).symm

theorem p_cb_setHandle_of_ne {x : Option Handle} (ho : o ≠ h) :
    (w.setHandle h x).p_cb o = w.p_cb o := by
  show ((Function.update w.handles h x) o).bind Handle.p_cb = w.p_cb o
  rw [Function.update_of_ne ho]
  rfl

theorem threads_give (hok : ∀ u, ThreadOk w u) (hidle : w.threads (w.owner h) = .idle) :
    ThreadOk { w with owner := Function.update w.owner h t } u := by
  -- the handle is in no operation, so no thread that is in one can mean it
  have hfree : ∀ k, w.owner k = u → w.threads u ≠ .idle → k ≠ h := by
    intro k hk hu hkh
    rw [← hk, hkh] at hu
    exact hu hidle
  have howner : ∀ k, w.owner k = u → w.threads u ≠ .idle →
      Function.update w.owner h t k = u := by
    intro k hk hu
    rw [Function.update_of_ne (hfree k hk hu)]
    exact hk
  refine ⟨fun k hl => ?_, fun k hk hl => ?_, fun k wr hw => ?_, fun k ha => ?_⟩
  · obtain ⟨hk, hc⟩ := (hok u).loose k hl
    refine ⟨howner k hk fun hu => ?_, hc⟩
    rw [show w.threads u = .idle from hu] at hl
    exact absurd hl (by simp [Thread.loose])
  · by_cases hkh : k = h
    · rw [hkh]
      refine (hok _).counted_idle ?_ rfl
      rw [hidle]
      rfl
    · refine (hok u).counted k ?_ hl
      rw [← hk]
      exact (Function.update_of_ne hkh ..).symm
  · have hu : w.threads u ≠ .idle := by
      intro hu
      rw [show w.threads u = .idle from hu] at hw
      exact absurd hw (by simp [Thread.writes])
    obtain ⟨hk, hsrc⟩ := (hok u).writes k wr hw
    exact ⟨howner k hk hu, fun o ho => ⟨(hsrc o ho).1, howner o (hsrc o ho).2 hu⟩⟩
  · have hu : w.threads u ≠ .idle := by
      intro hu
      rw [show w.threads u = .addRef k from ha] at hu
      exact absurd hu (by simp)
    obtain ⟨o, hne, ho, hcb⟩ := (hok u).adding k ha
    exact ⟨o, hne, howner o ho hu, hcb⟩

/-! ## Step by step -/

variable [DecidableEq T]

theorem Acts.goto (h : Acts w t w') : Acts w t (w'.goto t p) where
  owner := h.owner
  threads := by
    intro u hu
    show Function.update w'.threads t p u = w.threads u
    rw [Function.update_of_ne hu]
    exact h.threads u hu
  handles := h.handles
  counted := h.counted

theorem acts_goto : Acts w t (w.goto t p) :=
  Acts.goto ⟨rfl, fun _ _ => rfl, fun _ _ => rfl, fun _ _ => rfl⟩

/-- A handle of `t` may change, and what it is counted for. -/
theorem acts_handle (how : w.owner h = t) (howner : w'.owner = w.owner)
    (hthreads : w'.threads = w.threads) (hhandles : ∀ k, k ≠ h → w'.handles k = w.handles k)
    (hcounted : ∀ k, k ≠ h → w'.counted k = w.counted k) : Acts w t (w'.goto t p) := by
  have hne : ∀ k, w.owner k ≠ t → k ≠ h := by
    intro k hk hkh
    rw [hkh] at hk
    exact hk how
  exact Acts.goto ⟨howner, fun u _ => by rw [hthreads], fun k hk => hhandles k (hne k hk),
    fun k hk => hcounted k (hne k hk)⟩

theorem threads_of_acts (hok : ∀ u, ThreadOk w u) (hacts : Acts w t w') (ht : ThreadOk w' t) :
    ∀ u, ThreadOk w' u := by
  intro u
  by_cases hu : u = t
  · rw [hu]
    exact ht
  · exact (hok u).frame hacts hu

/-- The thread after `goto` is at the point it went to. -/
theorem goto_self (w : World n T D) (t : T) (p : Thread n D) : (w.goto t p).threads t = p :=
  Function.update_self ..

theorem threads_copy (hok : ∀ u, ThreadOk w u) (ht : w.threads t = .write h (.copy o)) :
    ∀ u, ThreadOk ((w.setHandle h (w.handles o)).goto t (.addRef h)) u := by
  obtain ⟨how, hc, hsrc, hrest⟩ := (hok t).before_write ht
  obtain ⟨hne, hoo⟩ := hsrc o rfl
  have hacts : Acts w t ((w.setHandle h (w.handles o)).goto t (.addRef h)) :=
    acts_handle how rfl rfl (fun k hk => Function.update_of_ne hk ..) (fun _ _ => rfl)
  have hself := goto_self (w.setHandle h (w.handles o)) t (.addRef h)
  refine threads_of_acts hok hacts ⟨fun k hl => ?_, fun k hk hl => ?_,
    fun k wr hw => ?_, fun k ha => ?_⟩
  · rw [hself] at hl
    rw [← Option.some.inj hl]
    exact ⟨how, hc⟩
  · rw [hself] at hl
    have hkh : k ≠ h := fun hkh => hl (by rw [hkh]; rfl)
    show w.counted k = (w.setHandle h (w.handles o)).p_cb k
    rw [p_cb_setHandle_of_ne hkh]
    exact hrest k hkh hk
  · rw [hself] at hw
    exact absurd hw (by simp [Thread.writes])
  · -- the handle that was copied has the same fields
    rw [hself] at ha
    injection ha with hhk
    rw [← hhk]
    refine ⟨o, hne, hoo, ?_⟩
    show (w.setHandle h (w.handles o)).p_cb o = (w.setHandle h (w.handles o)).p_cb h
    rw [p_cb_setHandle_of_ne hne]
    show w.p_cb o = ((Function.update w.handles h (w.handles o)) h).bind Handle.p_cb
    rw [Function.update_self]
    rfl

theorem threads_move (hok : ∀ u, ThreadOk w u) (ht : w.threads t = .write h (.move o)) :
    ∀ u, ThreadOk ((w.steal h o).goto t .idle) u := by
  obtain ⟨how, hc, hsrc, hrest⟩ := (hok t).before_write ht
  obtain ⟨hne, hoo⟩ := hsrc o rfl
  have hacts : Acts w t ((w.steal h o).goto t .idle) := by
    refine Acts.goto ⟨rfl, fun _ _ => rfl, fun k hk => ?_, fun k hk => ?_⟩
    · -- the handles of other threads are neither of the two
      have hkh : k ≠ h := fun hkh => hk (by rw [hkh]; exact how)
      have hko : k ≠ o := fun hko => hk (by rw [hko]; exact hoo)
      show Function.update (Function.update w.handles h (w.handles o)) o (some {}) k = w.handles k
      rw [Function.update_of_ne hko, Function.update_of_ne hkh]
    · have hkh : k ≠ h := fun hkh => hk (by rw [hkh]; exact how)
      have hko : k ≠ o := fun hko => hk (by rw [hko]; exact hoo)
      show Function.update (Function.update w.counted h (w.counted o)) o none k = w.counted k
      rw [Function.update_of_ne hko, Function.update_of_ne hkh]
  refine threads_of_acts hok hacts (.of_idle (goto_self ..) fun k hk => ?_)
  show Function.update (Function.update w.counted h (w.counted o)) o none k
    = ((Function.update (Function.update w.handles h (w.handles o)) o (some {})) k).bind Handle.p_cb
  by_cases hko : k = o
  · rw [hko, Function.update_self, Function.update_self]
    rfl
  · rw [Function.update_of_ne hko, Function.update_of_ne hko]
    by_cases hkh : k = h
    · rw [hkh, Function.update_self, Function.update_self]
      exact hrest o hne hoo
    · rw [Function.update_of_ne hkh, Function.update_of_ne hkh]
      exact hrest k hkh hk

/-- The end of an operation on `h`, after which the handle is counted for its block. -/
theorem threads_done (hok : ∀ u, ThreadOk w u) (hl : (w.threads t).loose = some h)
    (howner : w'.owner = w.owner) (hthreads : w'.threads = w.threads)
    (hhandles : ∀ k, k ≠ h → w'.handles k = w.handles k)
    (hcounted : ∀ k, k ≠ h → w'.counted k = w.counted k) (hh : w'.counted h = w'.p_cb h) :
    ∀ u, ThreadOk (w'.goto t .idle) u := by
  obtain ⟨how, _⟩ := (hok t).loose h hl
  refine threads_of_acts hok (acts_handle how howner hthreads hhandles hcounted)
    (.of_idle (goto_self ..) fun k hk => ?_)
  show w'.counted k = w'.p_cb k
  by_cases hkh : k = h
  · rw [hkh]
    exact hh
  · have hk' : w.owner k = t := by
      rw [← howner]
      exact hk
    unfold World.p_cb
    rw [hcounted k hkh, hhandles k hkh]
    refine (hok t).counted k hk' ?_
    rw [hl]
    intro hs
    exact hkh (Option.some.inj hs).symm

/-- A step on the way of an operation that has given up the old reference of `h`. -/
theorem threads_writes (hok : ∀ u, ThreadOk w u) (hw : (w.threads t).writes = some (h, wr))
    (hp : p.writes = some (h, wr)) (hl : p.loose = some h) (howner : w'.owner = w.owner)
    (hthreads : w'.threads = w.threads) (hhandles : w'.handles = w.handles)
    (hcounted : ∀ k, k ≠ h → w'.counted k = w.counted k) (hc : w'.counted h = none)
    (hloose : ∀ k, (w.threads t).loose = some k → k = h) :
    ∀ u, ThreadOk (w'.goto t p) u := by
  obtain ⟨how, hsrc⟩ := (hok t).writes h wr hw
  have hpw : ((w'.goto t p).threads t).writes = some (h, wr) := by
    rw [goto_self]
    exact hp
  have hpl : ((w'.goto t p).threads t).loose = some h := by
    rw [goto_self]
    exact hl
  refine threads_of_acts hok
    (acts_handle how howner hthreads (fun k _ => by rw [hhandles]) hcounted)
    (.of_writes hpw hpl ?_ hc (fun o ho => ?_) fun k hk hko => ?_)
  · show w'.owner h = t
    rw [howner]
    exact how
  · show o ≠ h ∧ w'.owner o = t
    rw [howner]
    exact hsrc o ho
  · show w'.counted k = (w'.handles k).bind Handle.p_cb
    rw [hcounted k hk, hhandles]
    refine (hok t).counted k ?_ fun hs => hk (hloose k hs)
    rw [← howner]
    exact hko

theorem threads_step (hinv : Inv w) (hm : Moves w w') : ∀ u, ThreadOk w' u := by
  have hok := hinv.threads
  cases hm with
  | stay => exact hok
  | give h t hidle => exact fun u => threads_give hok hidle
  | start t h wr hidle how hsrc =>
      have hself := goto_self w t (.release h wr)
      refine threads_of_acts hok acts_goto ⟨fun k hl => ?_, fun k hk _ => ?_, fun k wr' hw => ?_,
        fun k ha => ?_⟩
      · rw [hself] at hl
        exact absurd hl (by simp [Thread.loose])
      · exact (hok t).counted_idle (by rw [hidle]; rfl) hk
      · rw [hself] at hw
        obtain ⟨hhk, hwr⟩ := Prod.mk.inj (Option.some.inj hw)
        rw [← hhk, ← hwr]
        exact ⟨how, hsrc⟩
      · rw [hself] at ha
        exact absurd ha (by simp)
  | construct t h wr hidle how hsrc hnone =>
      have hself := goto_self w t (.write h wr)
      have hcounted : ∀ k, w.owner k = t → w.counted k = w.p_cb k := fun k hk =>
        (hok t).counted_idle (by rw [hidle]; rfl) hk
      have hc : w.counted h = none := by
        rw [hcounted h how, World.p_cb, hnone]
        rfl
      exact threads_of_acts hok acts_goto
        (.of_writes (by rw [hself]; rfl) (by rw [hself]; rfl) how hc
        hsrc fun k _ hk => hcounted k hk)
  | skip t h wr ht hcb =>
      obtain ⟨how, _⟩ := (hok t).writes h wr (by rw [ht]; rfl)
      have hc : w.counted h = none := by
        rw [(hok t).counted_idle (by rw [ht]; rfl) how, hcb]
      exact threads_writes hok (by rw [ht]; rfl) rfl rfl rfl rfl rfl (fun _ _ => rfl) hc
        (by rw [ht]; simp [Thread.loose])
  | fetchSub t h wr b block ht hc hb hpos =>
      have hw : (w.threads t).writes = some (h, wr) := by rw [ht]; rfl
      refine threads_writes hok hw ?_ ?_ rfl rfl rfl
        (fun k hk => Function.update_of_ne hk ..) (Function.update_self ..)
        (by rw [ht]; simp [Thread.loose])
      · split <;> rfl
      · split <;> rfl
  | dispose t h wr b x block ht hb hobj =>
      obtain ⟨_, hc⟩ := (hok t).loose h (by rw [ht]; rfl)
      let w₁ : World n T D := { w.setBlock b fun c => { c with p_obj := none } with
        deletions := w.deletions ++ [⟨b, x, block.deleter⟩] }
      show ∀ u, ThreadOk (w₁.goto t (.free b h wr)) u
      exact threads_writes hok (by rw [ht]; rfl) rfl rfl rfl rfl rfl (fun _ _ => rfl) hc
        (by rw [ht]; simp [Thread.loose])
  | keep t h wr b block ht hb hobj =>
      obtain ⟨_, hc⟩ := (hok t).loose h (by rw [ht]; rfl)
      exact threads_writes hok (by rw [ht]; rfl) rfl rfl rfl rfl rfl (fun _ _ => rfl) hc
        (by rw [ht]; simp [Thread.loose])
  | free t h wr b ht =>
      obtain ⟨_, hc⟩ := (hok t).loose h (by rw [ht]; rfl)
      exact threads_writes hok (by rw [ht]; rfl) rfl rfl rfl rfl rfl (fun _ _ => rfl) hc
        (by rw [ht]; simp [Thread.loose])
  | copy t h o ht => exact threads_copy hok ht
  | move t h o ht => exact threads_move hok ht
  | null t h wr ht x hx =>
      obtain ⟨_, hc, _, _⟩ := (hok t).before_write ht
      refine threads_done hok (by rw [ht]; rfl) rfl rfl (fun k hk => Function.update_of_ne hk ..)
        (fun _ _ => rfl) ?_
      show w.counted h = ((Function.update w.handles h x) h).bind Handle.p_cb
      rw [hc, Function.update_self]
      rcases hx with hx | hx <;> rw [hx] <;> rfl
  | create t h wr ht pointer d hfresh =>
      refine threads_done hok (by rw [ht]; rfl) rfl rfl (fun k hk => Function.update_of_ne hk ..)
        (fun k hk => Function.update_of_ne hk ..) ?_
      show Function.update w.counted h (some w.blocks.next) h
        = ((Function.update w.handles h (some ⟨pointer, some w.blocks.next⟩)) h).bind Handle.p_cb
      rw [Function.update_self, Function.update_self]
      rfl
  | fetchAdd t h b block ht hcb hb hpos =>
      refine threads_done hok (by rw [ht]; rfl) rfl rfl (fun _ _ => rfl)
        (fun k hk => Function.update_of_ne hk ..) ?_
      show Function.update w.counted h (some b) h = w.p_cb h
      rw [Function.update_self, hcb]
  | addNull t h ht hcb =>
      obtain ⟨_, hc⟩ := (hok t).loose h (by rw [ht]; rfl)
      refine threads_done hok (by rw [ht]; rfl) rfl rfl (fun _ _ => rfl) (fun _ _ => rfl) ?_
      rw [hc, hcb]

end QuickStructs.SharedPtr
