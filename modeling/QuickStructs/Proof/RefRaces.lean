import QuickStructs.Handle.SharedPtrWeak
import QuickStructs.Proof.RefCount

/-!
# Whoever deletes the object knows all its uses

A read of a control block or of its object is made through a handle, by the thread that owns it.
So as long as the handle is counted its owner answers for the read, and when the handle ceases to be
counted, the `fetch_sub` leaves what its thread knows at the count. The last one finds all of it
there. A handle that begins to be counted is a copy of one that is, and its owner the same, so the
`fetch_add` need not leave or take anything.
-/

namespace QuickStructs.SharedPtr

open Lib

variable {n : Nat} {T D : Type}
variable {w w' : World n T D} {s s' : Before T Nat Cell} {t u : T} {h o k : Fin n} {b : Nat}
variable {c : Cell} {p : Thread n D} {wr : Write n D}

/-! ## The invariant -/

/-- The cells that go with a control block. -/
def Belongs (w : World n T D) (b : Nat) : Cell → Prop
  | .block c => c = b ∧ w.managedAt b ≠ none
  | .object x => w.managedAt b = some (some x)

/-- The owner of a handle that is counted. -/
def Holder (w : World n T D) (b : Nat) (t : T) : Prop := ∃ h, w.counted h = some b ∧ w.owner h = t

structure Guarded (w : World n T D) (s : Before T Nat Cell) (b : Nat) (c : Cell) : Prop where
  covered : ∀ h, w.counted h = some b → s.Covered (Holder w b) b c
  /-- The owners know that the object and the block were made. -/
  known : ∀ h, w.counted h = some b → s.writes c ≤ s.knows (w.owner h)
  ending : ∀ t, (w.threads t).ending = some b → s.Knows t c

structure WeakInv (w : World n T D) (s : Before T Nat Cell) : Prop where
  inv : Inv w
  guarded : ∀ b c, Belongs w b c → Guarded w s b c
  fresh : ∀ c, (∀ b, ¬Belongs w b c) → s.reads c = (fun _ => 0) ∧ s.writes c = fun _ => 0
  clean : s.raced = false

theorem belongs_unique {b' : Nat} (hinv : Inv w) (h : Belongs w b c) (h' : Belongs w b' c) :
    b = b' := by
  cases c with
  | block a => exact h.1.symm.trans h'.1
  | object x => exact hinv.distinct b b' x h h'

theorem belongs_congr (hm : ∀ b, w'.managedAt b = w.managedAt b) (b : Nat) (c : Cell) :
    Belongs w' b c ↔ Belongs w b c := by
  cases c with
  | block a =>
      show a = b ∧ _ ↔ a = b ∧ _
      rw [hm b]
  | object x =>
      show _ = _ ↔ _ = _
      rw [hm b]

theorem belongs_block {block : ControlBlock D} (hb : w.blocks.cells b = some block) :
    Belongs w b (.block b) := by
  refine ⟨rfl, ?_⟩
  rw [World.managedAt, hb]
  exact Option.some_ne_none _

/-- The block that a thread has for itself is counted by no handle. -/
theorem not_counted (hinv : Inv w) (he : (w.threads t).ending = some b) (h : Fin n) :
    w.counted h ≠ some b := by
  intro hc
  obtain ⟨block, hb, hpos⟩ := pos_of_counted hinv hc
  cases hinv.stages b block hb with
  | live _ _ _ _ hend => exact hend t he
  | last _ _ _ _ hzero => omega
  | disposed _ _ _ _ hzero => omega
  | freed hzero => omega

theorem ending_unique (hinv : Inv w) (he : (w.threads t).ending = some b)
    (hu : (w.threads u).ending = some b) : u = t := by
  obtain ⟨block, hb⟩ := hinv.ending t b he
  cases hinv.stages b block hb with
  | live _ _ _ _ hend => exact absurd he (hend t)
  | last _ _ _ _ _ _ _ _ hend => exact (hend u hu).trans (hend t he).symm
  | disposed _ _ _ _ _ _ _ hend => exact (hend u hu).trans (hend t he).symm
  | freed _ _ _ hend => exact absurd he (hend t)

/-! ## Handles that come and go -/

/-- The thread takes the block for itself, and knows what the owners of its handles know and what
was left at its count. -/
def Takes (w : World n T D) (s s' : Before T Nat Cell) (t : T) (b : Nat) : Prop :=
  (∃ k, w.counted k = some b) ∧ (∀ k, w.counted k = some b → s.knows (w.owner k) ≤ s'.knows t)
    ∧ s.passes b ≤ s'.knows t

/-- **What a step keeps that makes no access.** A handle that is counted has an owner who knows as
much as the owner of one that was, and one that is not counted any more has left what its owner
knew. -/
theorem weak_carry (hi : WeakInv w s) (hinv : Inv w') (hgrows : s.Grows s')
    (hbelongs : ∀ b c, Belongs w' b c ↔ Belongs w b c)
    (hback : ∀ k b, w'.counted k = some b →
      ∃ k', w.counted k' = some b ∧ s.knows (w.owner k') ≤ s'.knows (w'.owner k))
    (hforth : ∀ k b, w.counted k = some b →
      (∃ k', w'.counted k' = some b ∧ s.knows (w.owner k) ≤ s'.knows (w'.owner k'))
        ∨ s.knows (w.owner k) ≤ s'.passes b)
    (hending : ∀ t b, (w'.threads t).ending = some b →
      (w.threads t).ending = some b ∨ Takes w s s' t b) : WeakInv w' s' where
  inv := hinv
  guarded := by
    intro b c hc
    have hg := hi.guarded b c ((hbelongs b c).mp hc)
    have hreads : s'.reads c = s.reads c := congrFun hgrows.reads c
    have hwrites : s'.writes c = s.writes c := congrFun hgrows.writes c
    constructor
    · intro k hk
      obtain ⟨k', hk', _⟩ := hback k b hk
      refine (hg.covered k' hk').carry hreads (hgrows.passes b) ?_
      rintro _ ⟨h, hh, rfl⟩
      rcases hforth h b hh with ⟨k₁, hk₁, hle⟩ | hle
      · exact .inl ⟨w'.owner k₁, ⟨k₁, hk₁, rfl⟩, hle⟩
      · exact .inr hle
    · intro k hk
      obtain ⟨k', hk', hle⟩ := hback k b hk
      rw [hwrites]
      exact le_trans (hg.known k' hk') hle
    · intro t ht
      rcases hending t b ht with hwas | ⟨⟨k, hk⟩, hknows, hpasses⟩
      · have hknew := hg.ending t hwas
        refine ⟨?_, ?_⟩
        · rw [hreads]
          exact le_trans hknew.1 (hgrows.knows t)
        · rw [hwrites]
          exact le_trans hknew.2 (hgrows.knows t)
      · refine ⟨?_, ?_⟩
        · rw [hreads]
          refine (hg.covered k hk).known ?_ hpasses
          rintro _ ⟨h, hh, rfl⟩
          exact hknows h hh
        · rw [hwrites]
          exact le_trans (hg.known k hk) (hknows k hk)
  fresh := by
    intro c hc
    rw [hgrows.reads, hgrows.writes]
    exact hi.fresh c fun b hb => hc b ((hbelongs b c).mpr hb)
  clean := hgrows.raced.trans hi.clean

/-- The same handles are counted, and have the same owners. -/
theorem weak_same (hi : WeakInv w s) (hinv : Inv w') (hgrows : s.Grows s')
    (hbelongs : ∀ b c, Belongs w' b c ↔ Belongs w b c) (hcounted : w'.counted = w.counted)
    (howner : w'.owner = w.owner)
    (hending : ∀ t b, (w'.threads t).ending = some b → (w.threads t).ending = some b) :
    WeakInv w' s' := by
  refine weak_carry hi hinv hgrows hbelongs ?_ ?_ ?_
  · intro k b hk
    rw [hcounted] at hk
    rw [howner]
    exact ⟨k, hk, hgrows.knows _⟩
  · intro k b hk
    rw [hcounted, howner]
    exact .inl ⟨k, hk, hgrows.knows _⟩
  · intro t b ht
    exact .inl (hending t b ht)

/-! ### The cells of a new control block -/

/-- The cells of a block that is made for a pointer. -/
def New (b : Nat) (pointer : Option Nat) : Cell → Prop
  | .block c => c = b
  | .object x => pointer = some x

theorem new_none : New b none c ↔ c = .block b := by
  cases c with
  | block a =>
      show a = b ↔ _
      rw [Cell.block.injEq]
  | object x => exact iff_of_false (by simp [New]) (by simp)

theorem new_some {x : Nat} : New b (some x) c ↔ c = .block b ∨ c = .object x := by
  cases c with
  | block a =>
      show a = b ↔ _
      simp
  | object y =>
      show some x = some y ↔ _
      simp [eq_comm]

theorem lt_of_belongs (hc : Belongs w b c) : b < w.blocks.next := by
  have hm : w.managedAt b ≠ none := by
    cases c with
    | block a => exact hc.2
    | object x =>
        intro hnone
        have hsome : w.managedAt b = some (some x) := hc
        rw [hnone] at hsome
        exact absurd hsome (by simp)
  obtain ⟨m, hm⟩ := Option.ne_none_iff_exists'.mp hm
  obtain ⟨block, hb, _⟩ := Option.map_eq_some_iff.mp hm
  exact Heap.lt_next hb

theorem new_fresh {pointer : Option Nat} (hinv : Inv w) (hfresh : ∀ x ∈ pointer, x ∉ w.adopted)
    (hc : New w.blocks.next pointer c) (b : Nat) : ¬Belongs w b c := by
  intro hb
  cases c with
  | block a =>
      obtain rfl : a = w.blocks.next := hc
      have hlt := lt_of_belongs hb
      have heq : w.blocks.next = b := hb.1
      omega
  | object x => exact hfresh x hc (hinv.adopted b x hb)

/-! ### Steps that make no access -/

variable [DecidableEq T]

/-- The thread goes on to a point where it has no block for itself, or the same one. -/
theorem ending_of_goto (hp : p.ending = none ∨ p.ending = (w.threads t).ending)
    (hu : ((w.goto t p).threads u).ending = some b) : (w.threads u).ending = some b := by
  by_cases hut : u = t
  · rw [hut, goto_self] at hu
    rcases hp with hnone | hsame
    · rw [hnone] at hu
      exact absurd hu (by simp)
    · rw [hut, ← hsame]
      exact hu
  · have hother : (w.goto t p).threads u = w.threads u := Function.update_of_ne hut ..
    rw [← hother]
    exact hu

theorem weak_goto (hi : WeakInv w s) (hinv : Inv (w.goto t p))
    (hp : p.ending = none ∨ p.ending = (w.threads t).ending) : WeakInv (w.goto t p) s :=
  weak_same hi hinv (Before.grows_refl s) (belongs_congr fun _ => rfl) rfl rfl
    fun _ _ hu => ending_of_goto hp hu

/-- The begin of an operation is no more than that. -/
theorem call_frame [Inhabited D] {op : Op n D} (hs : w.call t op = some w') :
    w' = w ∨ ∃ p, p.ending = none ∧ w' = w.goto t p := by
  cases op with
  | defaultCtor h =>
      obtain ⟨_, rfl⟩ := Transition.of_guard hs
      exact .inr ⟨_, rfl, rfl⟩
  | pointerCtor h pointer =>
      obtain ⟨_, rfl⟩ := Transition.of_guard hs
      exact .inr ⟨_, rfl, rfl⟩
  | deleterCtor h pointer d =>
      obtain ⟨_, rfl⟩ := Transition.of_guard hs
      exact .inr ⟨_, rfl, rfl⟩
  | copyCtor h o =>
      obtain ⟨_, rfl⟩ := Transition.of_guard hs
      exact .inr ⟨_, rfl, rfl⟩
  | moveCtor h o =>
      obtain ⟨_, rfl⟩ := Transition.of_guard hs
      exact .inr ⟨_, rfl, rfl⟩
  | copyAssign h o =>
      obtain ⟨_, rfl⟩ := Transition.of_guard hs
      split
      · exact .inr ⟨_, rfl, rfl⟩
      · exact .inl rfl
  | moveAssign h o =>
      obtain ⟨_, rfl⟩ := Transition.of_guard hs
      split
      · exact .inr ⟨_, rfl, rfl⟩
      · exact .inl rfl
  | reset h =>
      obtain ⟨_, rfl⟩ := Transition.of_guard hs
      exact .inr ⟨_, rfl, rfl⟩
  | resetTo h pointer d =>
      obtain ⟨_, rfl⟩ := Transition.of_guard hs
      exact .inr ⟨_, rfl, rfl⟩
  | dtor h =>
      obtain ⟨_, rfl⟩ := Transition.of_guard hs
      exact .inr ⟨_, rfl, rfl⟩

theorem weak_give (hi : WeakInv w s) (hinv : Inv { w with owner := Function.update w.owner h t }) :
    WeakInv { w with owner := Function.update w.owner h t } (s.hand (w.owner h) t) := by
  have hgrows := Before.grows_hand s (w.owner h) t
  -- whoever owns a handle now knows what its owner knew
  have howner : ∀ k, s.knows (w.owner k)
      ≤ (s.hand (w.owner h) t).knows (Function.update w.owner h t k) := by
    intro k
    by_cases hk : k = h
    · rw [hk, Function.update_self]
      exact Before.knows_le_hand s (w.owner h) t
    · rw [Function.update_of_ne hk]
      exact hgrows.knows _
  refine weak_carry hi hinv hgrows (belongs_congr fun _ => rfl) ?_ ?_ ?_
  · intro k b hk
    exact ⟨k, hk, howner k⟩
  · intro k b hk
    exact .inl ⟨k, hk, howner k⟩
  · intro u b hu
    exact .inl hu

/-- The reference goes from one handle of the thread to another one. -/
theorem weak_steal (hi : WeakInv w s) (ht : w.threads t = .write h (.move o)) :
    WeakInv ((w.steal h o).goto t .idle) s := by
  have hinv' := inv_step hi.inv (.move t h o ht)
  obtain ⟨how, hc, hsrc, _⟩ := (hi.inv.threads t).before_write ht
  obtain ⟨hne, hoo⟩ := hsrc o rfl
  have hcounted : ∀ k, ((w.steal h o).goto t .idle).counted k
      = if k = o then none else if k = h then w.counted o else w.counted k := by
    intro k
    show Function.update (Function.update w.counted h (w.counted o)) o none k = _
    rw [Function.update_apply, Function.update_apply]
  refine weak_carry hi hinv' (Before.grows_refl s) (belongs_congr fun _ => rfl) ?_ ?_ ?_
  · intro k b hk
    rw [hcounted] at hk
    split at hk
    · exact absurd hk (by simp)
    · split at hk
      · rename_i hkh
        refine ⟨o, hk, ?_⟩
        rw [hoo, hkh]
        exact le_of_eq (congrArg s.knows how.symm)
      · exact ⟨k, hk, le_rfl⟩
  · intro k b hk
    by_cases hko : k = o
    · refine .inl ⟨h, ?_, ?_⟩
      · rw [hcounted, if_neg hne.symm, if_pos rfl, ← hko]
        exact hk
      · rw [hko, hoo]
        exact le_of_eq (congrArg s.knows how.symm)
    · have hkh : k ≠ h := by
        rintro rfl
        rw [hc] at hk
        exact absurd hk (by simp)
      refine .inl ⟨k, ?_, le_rfl⟩
      rw [hcounted, if_neg hko, if_neg hkh]
      exact hk
  · intro u b hu
    exact .inl (ending_of_goto (w := w) (p := .idle) (.inl rfl) hu)

/-- A handle that its owner may use is counted for its block, and has its pointer. -/
theorem uses_counted (hinv : Inv w) (hu : w.uses t h = true) :
    w.owner h = t ∧ ∃ x, w.handles h = some x ∧ w.counted h = x.p_cb ∧ Fits w x := by
  unfold World.uses at hu
  rw [Bool.and_eq_true, decide_eq_true_iff] at hu
  obtain ⟨hidle, how, halive⟩ := hu
  obtain ⟨x, hx⟩ := Option.ne_none_iff_exists'.mp halive
  refine ⟨how, x, hx, ?_, hinv.handles h x hx⟩
  rw [(hinv.threads t).counted h how, World.p_cb, hx]
  · rfl
  · rw [idle_of_matches hidle]
    simp [Thread.loose]

/-! ### A new control block -/

/-- A new block has cells of its own. -/
theorem belongs_create {pointer : Option Nat} {d : D} :
    Belongs ((w.create h pointer d).goto t p) b c ↔
      (b = w.blocks.next ∧ New b pointer c) ∨ Belongs w b c := by
  have hcases : ∀ m, (w.create h pointer d).managedAt b = some m →
      (b = w.blocks.next ∧ m = pointer) ∨ w.managedAt b = some m := fun m hm =>
    managedAt_create_cases hm
  have hnext : (w.create h pointer d).managedAt w.blocks.next = some pointer :=
    managedAt_create_next
  constructor
  · intro hc
    cases c with
    | block a =>
        obtain ⟨m, hm⟩ := Option.ne_none_iff_exists'.mp hc.2
        rcases hcases m hm with ⟨hb, _⟩ | hold
        · exact .inl ⟨hb, hc.1⟩
        · refine .inr ⟨hc.1, ?_⟩
          rw [hold]
          exact Option.some_ne_none m
    | object x =>
        rcases hcases (some x) hc with ⟨hb, hx⟩ | hold
        · exact .inl ⟨hb, hx.symm⟩
        · exact .inr hold
  · rintro (⟨rfl, hnew⟩ | hold)
    · cases c with
      | block a =>
          refine ⟨hnew, ?_⟩
          show (w.create h pointer d).managedAt w.blocks.next ≠ none
          rw [hnext]
          exact Option.some_ne_none pointer
      | object x =>
          have hx : pointer = some x := hnew
          show (w.create h pointer d).managedAt w.blocks.next = some (some x)
          rw [hnext, hx]
    · cases c with
      | block a =>
          obtain ⟨m, hm⟩ := Option.ne_none_iff_exists'.mp hold.2
          have hkept : (w.create h pointer d).managedAt b = some m := managedAt_create hm
          refine ⟨hold.1, ?_⟩
          show (w.create h pointer d).managedAt b ≠ none
          rw [hkept]
          exact Option.some_ne_none m
      | object x => exact managedAt_create (h := h) hold

/-- The new block has the handle that it was made for. -/
theorem counted_create {pointer : Option Nat} {d : D}
    (hk : ((w.create h pointer d).goto t .idle).counted k = some b) :
    (k = h ∧ b = w.blocks.next) ∨ (k ≠ h ∧ w.counted k = some b) := by
  have hupdate : Function.update w.counted h (some w.blocks.next) k = some b := hk
  by_cases hkh : k = h
  · rw [hkh, Function.update_self] at hupdate
    exact .inl ⟨hkh, (Option.some.inj hupdate).symm⟩
  · rw [Function.update_of_ne hkh] at hupdate
    exact .inr ⟨hkh, hupdate⟩

/-- What the maker knows, the owner of the only handle knows. -/
theorem guarded_new {pointer : Option Nat} {d : D} (hinv : Inv w) (how : w.owner h = t)
    (hknows : s.Knows t c) :
    Guarded ((w.create h pointer d).goto t .idle) s w.blocks.next c where
  covered := fun _ _ u => .inl ⟨t, ⟨h, Function.update_self .., how⟩, hknows.1 u⟩
  known := by
    intro k hk
    rcases counted_create hk with ⟨rfl, _⟩ | ⟨_, hwas⟩
    · show _ ≤ s.knows (w.owner k)
      rw [how]
      exact hknows.2
    · obtain ⟨block, hb⟩ := hinv.counted k _ hwas
      exact absurd (Heap.lt_next hb) (Nat.lt_irrefl _)
  ending := by
    intro u hu
    have hwas := ending_of_goto (w := w) (p := .idle) (.inl rfl) hu
    obtain ⟨block, hb⟩ := hinv.ending u _ hwas
    exact absurd (Heap.lt_next hb) (Nat.lt_irrefl _)

/-- The handles of the other blocks are those that they had. -/
theorem guarded_old {pointer : Option Nat} {d : D} (hnone : w.counted h = none)
    (hlt : b < w.blocks.next) (hg : Guarded w s b c) :
    Guarded ((w.create h pointer d).goto t .idle) s b c := by
  have hwas : ∀ k, ((w.create h pointer d).goto t .idle).counted k = some b →
      w.counted k = some b := by
    intro k hk
    rcases counted_create hk with ⟨_, hb⟩ | ⟨_, hwas⟩
    · omega
    · exact hwas
  constructor
  · intro k hk
    refine (hg.covered k (hwas k hk)).carry rfl le_rfl ?_
    rintro _ ⟨k', hk', rfl⟩
    have hkh : k' ≠ h := by
      rintro rfl
      rw [hnone] at hk'
      exact absurd hk' (by simp)
    exact .inl ⟨w.owner k', ⟨k', (Function.update_of_ne hkh ..).trans hk', rfl⟩, le_rfl⟩
  · intro k hk
    exact hg.known k (hwas k hk)
  · intro u hu
    exact hg.ending u (ending_of_goto (w := w) (p := .idle) (.inl rfl) hu)

/-! ## Accesses -/

variable [Fintype T]

/-- A read by a thread that owns a counted handle, or has the block for itself. -/
theorem weak_read_by (hi : WeakInv w s) (hc : Belongs w b c)
    (hcounted : ∀ h, w.counted h = some b → Holder w b t)
    (hending : ∀ u, (w.threads u).ending = some b → u = t) (hknown : s.writes c ≤ s.knows t) :
    WeakInv w (s.read t c) where
  inv := hi.inv
  guarded := by
    intro b' c' hc'
    have hg := hi.guarded b' c' hc'
    have hsame : c' = c → b' = b := by
      rintro rfl
      exact belongs_unique hi.inv hc' hc
    constructor
    · intro h hh
      refine Before.covered_of_read (hg.covered h hh) ?_
      intro heq
      rw [hsame heq] at hh ⊢
      exact hcounted h hh
    · intro h hh
      exact le_trans (hg.known h hh) (Before.knows_read s t c _)
    · intro u hu
      refine Before.knows_of_read (hg.ending u hu) ?_
      intro heq
      rw [hsame heq] at hu
      exact hending u hu
  fresh := by
    intro c' hc'
    have hne : c' ≠ c := by
      rintro rfl
      exact hc' b hc
    rw [Before.reads_read, if_neg hne]
    exact hi.fresh c' hc'
  clean := Before.read_raced hi.clean hknown

/-- **A read through a handle that is counted.** -/
theorem weak_read (hi : WeakInv w s) (hk : w.counted k = some b) (hc : Belongs w b c) :
    WeakInv w (s.read (w.owner k) c) := by
  refine weak_read_by hi hc (fun _ _ => ⟨k, hk, rfl⟩) ?_ ((hi.guarded b c hc).known k hk)
  intro u hu
  exact absurd hk (not_counted hi.inv hu k)

theorem weak_read_ending (hi : WeakInv w s) (he : (w.threads t).ending = some b)
    (hc : Belongs w b c) : WeakInv w (s.read t c) := by
  refine weak_read_by hi hc ?_ (fun u hu => ending_unique hi.inv he hu)
    ((hi.guarded b c hc).ending t he).2
  intro h hh
  exact absurd hh (not_counted hi.inv he h)

/-- What is known of a cell is not changed by a write to another one. -/
theorem guarded_write (hg : Guarded w s b c) {c' : Cell} (hne : c ≠ c') (t : T) :
    Guarded w (s.write t c') b c where
  covered := by
    intro h hh
    refine (hg.covered h hh).carry rfl le_rfl ?_
    intro u hu
    exact .inl ⟨u, hu, Before.knows_write s t c' u⟩
  known := by
    intro h hh
    rw [Before.writes_write, if_neg hne]
    exact le_trans (hg.known h hh) (Before.knows_write s t c' _)
  ending := by
    intro u hu
    exact Before.knows_of_write (hg.ending u hu) fun heq => absurd heq hne

/-- **A write by the thread that has the block for itself.** -/
theorem weak_write (hi : WeakInv w s) (he : (w.threads t).ending = some b) (hc : Belongs w b c) :
    WeakInv w (s.write t c) where
  inv := hi.inv
  guarded := by
    intro b' c' hc'
    have hg := hi.guarded b' c' hc'
    by_cases heq : c' = c
    · subst heq
      obtain rfl := belongs_unique hi.inv hc' hc
      constructor
      · intro h hh
        exact absurd hh (not_counted hi.inv he h)
      · intro h hh
        exact absurd hh (not_counted hi.inv he h)
      · intro u hu
        exact Before.knows_of_write (hg.ending u hu) fun _ => ending_unique hi.inv he hu
    · exact guarded_write hg heq t
  fresh := by
    intro c' hc'
    have hne : c' ≠ c := by
      rintro rfl
      exact hc' b hc
    rw [Before.writes_write, if_neg hne]
    exact hi.fresh c' hc'
  clean := Before.write_raced hi.clean ((hi.guarded b c hc).ending t he)

/-- The first write to a cell. -/
theorem write_fresh (hraced : s.raced = false) (hreads : s.reads c = fun _ => 0)
    (hwrites : s.writes c = fun _ => 0) (t : T) :
    (s.write t c).raced = false ∧ (s.write t c).Knows t c := by
  have hknows : s.Knows t c := by
    refine ⟨?_, ?_⟩
    · rw [hreads]
      exact fun _ => Nat.zero_le _
    · rw [hwrites]
      exact fun _ => Nat.zero_le _
  exact ⟨Before.write_raced hraced hknows, Before.knows_of_write hknows fun _ => rfl⟩

/-- What a thread writes to a cell that nobody has used concerns no other cell. -/
theorem write_new (hraced : s.raced = false)
    (hfresh : s.reads c = (fun _ => 0) ∧ s.writes c = fun _ => 0) (w : World n T D) (t : T) :
    (s.write t c).raced = false ∧ (s.write t c).Knows t c
      ∧ (∀ c', c' ≠ c → (s.write t c).reads c' = s.reads c' ∧ (s.write t c).writes c' = s.writes c')
      ∧ ∀ b c', c' ≠ c → Guarded w s b c' → Guarded w (s.write t c) b c' := by
  obtain ⟨hraced', hknows⟩ := write_fresh hraced hfresh.1 hfresh.2 t
  refine ⟨hraced', hknows, ?_, ?_⟩
  · intro c' hne
    refine ⟨rfl, ?_⟩
    rw [Before.writes_write, if_neg hne]
  · intro b c' hne hg
    exact guarded_write hg hne t

/-- What a thread does that makes a block is not known to others, and concerns no other cell. -/
theorem createCells_spec {pointer : Option Nat} (hraced : s.raced = false)
    (hfresh : ∀ c, New b pointer c → s.reads c = (fun _ => 0) ∧ s.writes c = fun _ => 0)
    (w : World n T D)
    (t : T) :
    (createCells s t b pointer).raced = false
      ∧ (∀ c, New b pointer c → (createCells s t b pointer).Knows t c)
      ∧ (∀ c, ¬New b pointer c → (createCells s t b pointer).reads c = s.reads c
          ∧ (createCells s t b pointer).writes c = s.writes c)
      ∧ ∀ b' c, ¬New b pointer c → Guarded w s b' c →
        Guarded w (createCells s t b pointer) b' c := by
  obtain ⟨hraced₁, hknows₁, hother₁, hkeeps₁⟩ := write_new hraced (hfresh (.block b) rfl) w t
  cases pointer with
  | none =>
      simp only [new_none]
      exact ⟨hraced₁, fun c hc => hc ▸ hknows₁, hother₁, hkeeps₁⟩
  | some x =>
      obtain ⟨hreads, hwrites⟩ := hother₁ (.object x) (by simp)
      have hobject := hfresh (.object x) rfl
      rw [← hreads, ← hwrites] at hobject
      obtain ⟨hraced₂, hknows₂, hother₂, hkeeps₂⟩ := write_new hraced₁ hobject w t
      simp only [new_some, not_or]
      refine ⟨hraced₂, ?_, ?_, ?_⟩
      · intro c hc
        rcases hc with rfl | rfl
        · exact Before.knows_of_write hknows₁ fun _ => rfl
        · exact hknows₂
      · intro c hc
        obtain ⟨hr₁, hw₁⟩ := hother₁ c hc.1
        obtain ⟨hr₂, hw₂⟩ := hother₂ c hc.2
        exact ⟨hr₂.trans hr₁, hw₂.trans hw₁⟩
      · intro b' c hc hg
        exact hkeeps₂ b' c hc.2 (hkeeps₁ b' c hc.1 hg)

/-! ## Step by step -/

/-- **`fetch_sub`.** What the thread knows stays at the count, and if no handle is left it knows
what all the others have left there. -/
theorem weak_fetchSub (hi : WeakInv w s) (ht : w.threads t = .release h wr)
    (hcb : w.p_cb h = some b) {order : MemoryOrder} (hacq : order.acquires = true)
    (hrel : order.releases = true) :
    WeakInv (w.fetchSub t h wr b) ((s.read t (.block b)).exchange order t b) := by
  have hinv' := inv_step hi.inv (fetchSub_moves hi.inv ht hcb)
  obtain ⟨how, _⟩ := (hi.inv.threads t).writes h wr (by rw [ht]; rfl)
  have hc : w.counted h = some b := by
    rw [(hi.inv.threads t).counted h how (by rw [ht]; simp [Thread.loose]), hcb]
  obtain ⟨block, hb, hpos⟩ := pos_of_counted hi.inv hc
  have hread := weak_read hi hc (belongs_block hb)
  rw [how] at hread
  unfold World.fetchSub at hinv' ⊢
  rw [touch_eq hb ((hi.inv.stages b block hb).freed_of_pos hpos)] at hinv' ⊢
  have hgrows := Before.grows_exchange (s.read t (.block b)) order t b
  refine weak_carry hread hinv' hgrows (belongs_congr fun _ => managedAt_setBlock fun _ => rfl)
    ?_ ?_ ?_
  · intro k b' hk
    have hupdate : Function.update w.counted h none k = some b' := hk
    by_cases hkh : k = h
    · rw [hkh, Function.update_self] at hupdate
      exact absurd hupdate (by simp)
    · rw [Function.update_of_ne hkh] at hupdate
      exact ⟨k, hupdate, hgrows.knows _⟩
  · intro k b' hk
    by_cases hkh : k = h
    · subst hkh
      obtain rfl : b = b' := Option.some.inj (hc.symm.trans hk)
      rw [how]
      exact .inr (Before.knows_le_exchange _ hrel t b)
    · exact .inl ⟨k, (Function.update_of_ne hkh ..).trans hk, hgrows.knows _⟩
  · intro u b' hu
    by_cases hut : u = t
    · subst hut
      have hends := hu
      rw [goto_self] at hends
      split at hends
      · obtain rfl : b = b' := Option.some.inj hends
        refine .inr ⟨⟨h, hc⟩, ?_, Before.passes_le_exchange _ hacq u b⟩
        intro k hk
        by_cases hkh : k = h
        · rw [hkh, how]
          exact hgrows.knows _
        · -- it would be counted for a block that the thread has for itself
          have hstill : Function.update w.counted h none k = some b :=
            (Function.update_of_ne hkh ..).trans hk
          exact absurd hstill (not_counted hinv' hu k)
      · exact absurd hends (by simp [Thread.ending])
    · have hother : (w.threads u).ending = some b' := by
        rw [← hu]
        exact congrArg Thread.ending (Function.update_of_ne hut ..).symm
      exact .inl hother

/-- **`fetch_add`**, with any memory order: the thread owns the handle that was copied. -/
theorem weak_fetchAdd (hi : WeakInv w s) (ht : w.threads t = .addRef h) (hcb : w.p_cb h = some b)
    (order : MemoryOrder) :
    WeakInv (w.fetchAdd t h b) ((s.read t (.block b)).exchange order t b) := by
  have hinv' := inv_step hi.inv (fetchAdd_moves hi.inv ht hcb)
  obtain ⟨o, hne, how, ho⟩ := (hi.inv.threads t).adding h ht
  obtain ⟨hmine, hloose⟩ := (hi.inv.threads t).loose h (by rw [ht]; rfl)
  have hc : w.counted o = some b := by
    rw [(hi.inv.threads t).counted o how, ho, hcb]
    rw [ht]
    intro hl
    exact hne (Option.some.inj hl).symm
  obtain ⟨block, hb, hpos⟩ := pos_of_counted hi.inv hc
  have hread := weak_read hi hc (belongs_block hb)
  rw [how] at hread
  unfold World.fetchAdd at hinv' ⊢
  rw [touch_eq hb ((hi.inv.stages b block hb).freed_of_pos hpos)] at hinv' ⊢
  have hgrows := Before.grows_exchange (s.read t (.block b)) order t b
  refine weak_carry hread hinv' hgrows (belongs_congr fun _ => managedAt_setBlock fun _ => rfl)
    ?_ ?_ ?_
  · intro k b' hk
    have hupdate : Function.update w.counted h (some b) k = some b' := hk
    by_cases hkh : k = h
    · subst hkh
      rw [Function.update_self] at hupdate
      refine ⟨o, hc.trans hupdate, ?_⟩
      rw [how.trans hmine.symm]
      exact hgrows.knows _
    · rw [Function.update_of_ne hkh] at hupdate
      exact ⟨k, hupdate, hgrows.knows _⟩
  · intro k b' hk
    have hkh : k ≠ h := by
      rintro rfl
      rw [hloose] at hk
      exact absurd hk (by simp)
    exact .inl ⟨k, (Function.update_of_ne hkh ..).trans hk, hgrows.knows _⟩
  · intro u b' hu
    exact .inl (ending_of_goto (w := w) (p := .idle) (.inl rfl) hu)

theorem weak_dispose (hi : WeakInv w s) (ht : w.threads t = .dispose b h wr) {o : Orders} :
    WeakInv (w.dispose t h wr b) (w.advanceCells o t s) := by
  have hinv' := inv_step hi.inv (dispose_moves hi.inv ht)
  obtain ⟨block, hb, _, hfreed, hobj, _, _⟩ := stage_of_dispose hi.inv ht
  have hend : (w.threads t).ending = some b := by
    rw [ht]
    rfl
  have hsame : Thread.ending (.free b h wr) = (w.threads t).ending := by
    rw [ht]
    rfl
  unfold World.dispose at hinv' ⊢
  rw [touch_eq hb hfreed] at hinv' ⊢
  cases hp : block.p_obj with
  | none =>
      have hcells : w.advanceCells o t s = s.read t (.block b) := by
        simp only [World.advanceCells, ht, hb, hp, Option.bind_some]
      rw [hcells]
      simp only [hp] at hinv' ⊢
      exact weak_goto (weak_read_ending hi hend (belongs_block hb)) hinv' (.inr hsame)
  | some x =>
      have hcells : w.advanceCells o t s = (s.write t (.object x)).write t (.block b) := by
        simp only [World.advanceCells, ht, hb, hp, Option.bind_some]
      have hx : Belongs w b (.object x) := by
        show w.managedAt b = some (some x)
        rw [World.managedAt, hb, ← hp, hobj]
        rfl
      have hdeleted := weak_write (weak_write hi hend hx) hend (belongs_block hb)
      rw [hcells]
      simp only [hp] at hinv' ⊢
      exact weak_same hdeleted hinv' (Before.grows_refl _)
        (belongs_congr fun _ => managedAt_setBlock fun _ => rfl) rfl rfl
        fun _ _ hu => ending_of_goto (w := w) (.inr hsame) hu

theorem weak_free (hi : WeakInv w s) (ht : w.threads t = .free b h wr) :
    WeakInv (w.free t h wr b) (s.write t (.block b)) := by
  have hinv' := inv_step hi.inv (free_moves hi.inv ht)
  obtain ⟨block, hb, _, hfreed, _⟩ := stage_of_free hi.inv ht
  have hend : (w.threads t).ending = some b := by
    rw [ht]
    rfl
  unfold World.free at hinv' ⊢
  rw [touch_eq hb hfreed] at hinv' ⊢
  exact weak_same (weak_write hi hend (belongs_block hb)) hinv' (Before.grows_refl _)
    (belongs_congr fun _ => managedAt_setBlock fun _ => rfl) rfl rfl
    fun _ _ hu => ending_of_goto (w := w) (p := .write h wr) (.inl rfl) hu

/-- **A new control block**: its maker knows it, and owns the only handle. -/
theorem weak_create (hi : WeakInv w s) (ht : w.threads t = .write h wr)
    (pointer : Option Nat) (d : D)
    (hfresh : ∀ x ∈ pointer, x ∉ w.adopted) :
    WeakInv ((w.create h pointer d).goto t .idle) (createCells s t w.blocks.next pointer) := by
  have hinv' := inv_step hi.inv (.create t h wr ht pointer d hfresh)
  obtain ⟨how, hnone, _⟩ := (hi.inv.threads t).before_write ht
  obtain ⟨hraced, hknows, hrest, hguard⟩ := createCells_spec hi.clean
    (fun c hc => hi.fresh c (new_fresh hi.inv hfresh hc)) w t
  refine ⟨hinv', ?_, ?_, hraced⟩
  · intro b c hc
    rcases belongs_create.mp hc with ⟨rfl, hnew⟩ | hold
    · exact guarded_new hi.inv how (hknows c hnew)
    · have hnot : ¬New w.blocks.next pointer c := by
        intro hnew
        exact new_fresh hi.inv hfresh hnew b hold
      exact guarded_old hnone (lt_of_belongs hold) (hguard b c hnot (hi.guarded b c hold))
  · intro c hc
    have hnot : ¬New w.blocks.next pointer c := by
      intro hnew
      exact hc w.blocks.next (belongs_create.mpr (.inl ⟨rfl, hnew⟩))
    obtain ⟨hreads, hwrites⟩ := hrest c hnot
    rw [hreads, hwrites]
    exact hi.fresh c fun b hb => hc b (belongs_create.mpr (.inr hb))

/-! ## Whole runs -/

/-- A thread writes the fields of its handle. -/
theorem weak_write_step {o : Orders} (hi : WeakInv w s) (ht : w.threads t = .write h wr)
    (hs : w.write t h wr = some w') : WeakInv w' (w.advanceCells o t s) := by
  have hinv' := inv_step hi.inv (write_moves ht hs)
  have hnull : ∀ x : Option Handle, w' = (w.setHandle h x).goto t .idle → WeakInv w' s := by
    intro x hx
    subst hx
    exact weak_same hi hinv' (Before.grows_refl s) (belongs_congr fun _ => rfl) rfl rfl
      fun _ _ hu => ending_of_goto (w := w) (p := .idle) (.inl rfl) hu
  cases wr with
  | copy o =>
      injection hs with hs
      subst hs
      simp only [World.advanceCells, ht]
      exact weak_same hi hinv' (Before.grows_refl s) (belongs_congr fun _ => rfl) rfl rfl
        fun _ _ hu => ending_of_goto (w := w) (p := .addRef h) (.inl rfl) hu
  | move o =>
      injection hs with hs
      subst hs
      simp only [World.advanceCells, ht]
      exact weak_steal hi ht
  | null =>
      injection hs with hs
      simp only [World.advanceCells, ht]
      exact hnull _ hs.symm
  | create pointer d =>
      obtain ⟨hfresh, rfl⟩ := Transition.of_guard hs
      simp only [World.advanceCells, ht]
      exact weak_create hi ht pointer d hfresh
  | adopt pointer d =>
      cases pointer with
      | none =>
          injection hs with hs
          simp only [World.advanceCells, ht]
          exact hnull _ hs.symm
      | some x =>
          obtain ⟨hfresh, rfl⟩ := Transition.of_guard hs
          simp only [World.advanceCells, ht]
          refine weak_create hi ht (some x) d ?_
          intro y hy
          rw [← Option.mem_some.mp hy]
          exact hfresh
  | destroy =>
      injection hs with hs
      simp only [World.advanceCells, ht]
      exact hnull _ hs.symm

theorem weak_advance {o : Orders} (ho : o.fetchSub.acquires = true ∧ o.fetchSub.releases = true)
    (hi : WeakInv w s) (hs : w.advance t = some w') : WeakInv w' (w.advanceCells o t s) := by
  cases ht : w.threads t with
  | idle =>
      simp only [World.advance, ht] at hs
      exact absurd hs (by simp)
  | release h wr =>
      simp only [World.advance, ht] at hs
      simp only [World.advanceCells, ht]
      cases hcb : w.p_cb h with
      | none =>
          simp only [hcb, Option.some.injEq] at hs
          subst hs
          exact weak_goto hi (inv_step hi.inv (.skip t h wr ht hcb)) (.inl rfl)
      | some b =>
          simp only [hcb, Option.some.injEq] at hs
          subst hs
          exact weak_fetchSub hi ht hcb ho.1 ho.2
  | dispose b h wr =>
      simp only [World.advance, ht, Option.some.injEq] at hs
      subst hs
      exact weak_dispose hi ht
  | free b h wr =>
      simp only [World.advance, ht, Option.some.injEq] at hs
      simp only [World.advanceCells, ht]
      subst hs
      exact weak_free hi ht
  | write h wr =>
      simp only [World.advance, ht] at hs
      exact weak_write_step hi ht hs
  | addRef h =>
      simp only [World.advance, ht] at hs
      simp only [World.advanceCells, ht]
      cases hcb : w.p_cb h with
      | none =>
          simp only [hcb, Option.some.injEq] at hs
          subst hs
          exact weak_goto hi (inv_step hi.inv (.addNull t h ht hcb)) (.inl rfl)
      | some b =>
          simp only [hcb, Option.some.injEq] at hs
          subst hs
          exact weak_fetchAdd hi ht hcb _

theorem weak_step [Inhabited D] {o : Orders} {a : WeakAction n T D} {v v' : Weak n T D}
    (ho : o.fetchSub.acquires = true ∧ o.fetchSub.releases = true) (hi : WeakInv v.world v.before)
    (hs : weakStep o v a = some v') : WeakInv v'.world v'.before := by
  cases a with
  | act a =>
      obtain ⟨w', hw, rfl⟩ := Option.map_eq_some_iff.mp hs
      have hinv' := inv_step hi.inv (step_moves hi.inv hw)
      cases a with
      | call t op =>
          rw [step, Option.ite_none_right_eq_some] at hw
          rcases call_frame hw.2 with rfl | ⟨p, hp, rfl⟩
          · exact hi
          · exact weak_goto hi hinv' (.inl hp)
      | advance t => exact weak_advance ho hi hw
      | give h t =>
          obtain ⟨_, rfl⟩ := Transition.of_guard hw
          exact weak_give hi hinv'
  | use t h =>
      simp only [weakStep] at hs
      split at hs
      · rename_i x hx
        obtain ⟨hu, rfl⟩ := Transition.of_guard hs
        obtain ⟨how, y, hy, hc, hfits⟩ := uses_counted hi.inv hu
        rw [hy] at hx
        have hobj : y.p_obj = some x := hx
        unfold Fits at hfits
        cases hcb : y.p_cb with
        | none =>
            simp only [hcb] at hfits
            rw [hobj] at hfits
            exact absurd hfits (by simp)
        | some b =>
            simp only [hcb] at hfits
            rw [hobj] at hfits
            rw [← how]
            exact weak_read hi (hc.trans hcb) hfits
      · exact absurd hs (by simp)
  | useCount t h =>
      simp only [weakStep] at hs
      rw [Option.ite_none_right_eq_some] at hs
      obtain ⟨hu, hs⟩ := hs
      obtain ⟨how, y, hy, hc, _⟩ := uses_counted hi.inv hu
      cases hcb : v.world.p_cb h with
      | none =>
          simp only [hcb, Option.some.injEq] at hs
          subst hs
          exact hi
      | some b =>
          simp only [hcb, Option.some.injEq] at hs
          subst hs
          have hcounted : v.world.counted h = some b := by
            rw [hc, ← hcb, World.p_cb, hy]
            rfl
          obtain ⟨block, hb⟩ := hi.inv.counted h b hcounted
          rw [← how]
          exact weak_read hi hcounted (belongs_block hb)

theorem weak_inv_reachable [Inhabited D] {o : Orders} {v : Weak n T D}
    (ho : o.fetchSub.acquires = true ∧ o.fetchSub.releases = true) (h : WeakReachable o v) :
    WeakInv v.world v.before := by
  obtain ⟨owner, h⟩ := h
  refine h.invariant (I := fun v => WeakInv v.world v.before) ?_
    fun _ _ _ _ hi hs => weak_step ho hi hs
  refine ⟨inv_init owner, ?_, fun _ _ => ⟨rfl, rfl⟩, rfl⟩
  intro b c hc
  exact absurd (lt_of_belongs hc) (Nat.not_lt_zero b)

/--
**Whoever deletes the object knows all its uses.**

With the memory orders of the code, in any run of any threads, no making, no deletion of an object
and no freeing of a control block races with a use of it: and when a thread is about to call the
deleter or to free the control block, all that any thread has done with the object and with the
block, through any handle, happens before. Whether two uses of one object race is up to the program.
-/
theorem disposal_ordered [Inhabited D] (v : Weak n T D) (h : WeakReachable {} v) :
    v.before.raced = false
      ∧ ∀ t b c, (v.world.threads t).ending = some b →
        Belongs v.world b c → v.before.Knows t c := by
  have hi := weak_inv_reachable ⟨rfl, rfl⟩ h
  refine ⟨hi.clean, ?_⟩
  intro t b c ht hc
  exact (hi.guarded b c hc).ending t ht

/-- A thread uses the object and destroys its handle; then the thread that made both handles
destroys the other one, and is about to call the deleter. -/
def lastOne (h h' : Fin n) (t t' : T) (x : Nat) (d : D) : List (WeakAction n T D) :=
  [.act (.give h' t), .act (.call t (.deleterCtor h (some x) d)), .act (.advance t),
    .act (.call t (.copyCtor h' h)), .act (.advance t), .act (.advance t), .act (.give h' t'),
    .use t' h', .act (.call t' (.dtor h')), .act (.advance t'), .act (.call t (.dtor h)),
    .act (.advance t)]

theorem disposal_ordered_last :
    ((Transition.exec (weakStep {}) { world := .start id }
      (lastOne (0 : Fin 2) 1 (0 : Fin 2) 1 7 ())).get (by decide)).before.Knows 0 (.object 7) :=
  (disposal_ordered _ ⟨id, Transition.exec_reach _ (Option.some_get _).symm⟩).2 0 0 (.object 7)
    (by decide) (by simp only [Belongs]; decide)

/-! ## Which orders are needed -/

theorem lastOne_races (o : Orders)
    (ho : ¬(o.fetchSub.acquires = true ∧ o.fetchSub.releases = true)) :
    (Transition.exec (weakStep o) { world := .start id }
      (lastOne (0 : Fin 2) 1 (0 : Fin 2) 1 7 () ++ [.act (.advance 0)])).any
        (fun v => v.before.raced) = true := by
  obtain ⟨add, sub⟩ := o
  cases add <;> cases sub <;> first | exact absurd ⟨rfl, rfl⟩ ho | decide

/--
**Which memory orders reference counting needs.**

In no run does the making, the deletion or the freeing of an object or a control block race with a
use of it, for any number of handles, any threads and any deleters, if and only if the `fetch_sub`
of `release` both acquires and releases. The order of the `fetch_add` does not matter.
-/
theorem ref_orders_iff (o : Orders) :
    (∀ (n : Nat) (T D : Type) [DecidableEq T] [Fintype T] [Inhabited D] (v : Weak n T D),
      WeakReachable o v → v.before.raced = false) ↔
      o.fetchSub.acquires = true ∧ o.fetchSub.releases = true := by
  constructor
  · intro hfree
    by_contra ho
    have hraces := lastOne_races o ho
    cases hr : Transition.exec (weakStep o) { world := .start id }
        (lastOne (0 : Fin 2) 1 (0 : Fin 2) 1 7 () ++ [.act (.advance 0)]) with
    | none =>
        rw [hr] at hraces
        exact Bool.false_ne_true hraces
    | some v =>
        rw [hr] at hraces
        have hclean := hfree 2 (Fin 2) Unit v ⟨id, Transition.exec_reach _ hr⟩
        exact Bool.false_ne_true (hclean.symm.trans hraces)
  · intro ho n T D _ _ _ v hv
    exact (weak_inv_reachable ho hv).clean

end QuickStructs.SharedPtr
