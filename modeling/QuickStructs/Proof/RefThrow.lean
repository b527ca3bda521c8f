import QuickStructs.Handle.SharedPtrThrow
import QuickStructs.Proof.RefCount

/-!
# A reset that throws

No step looks at a `p_obj` that comes without a control block, so a world may as well be
looked at without those, and then an exception that finds no control block in its handle
leaves nothing behind: the invariant goes on, and with it all that follows for the handles
and for their destructors. Any other exception leaves a handle that points to what is not
its own, a block that it has given up or memory where no block was made.
-/

namespace QuickStructs.SharedPtr

open Lib Tally

variable {n : Nat} {T D : Type}
variable {w w' : World n T D} {t u : T} {h k : Fin n} {b x : Nat} {p : Thread n D} {d : D}
variable {e : Failure} {wr : Write n D}

/-! ## What the handles own -/

/-- The handle without a pointer that no control block manages. -/
def Handle.owned (x : Handle) : Handle := { x with p_obj := x.p_cb.bind fun _ => x.p_obj }

def World.owned (w : World n T D) : World n T D :=
  { w with handles := fun h => (w.handles h).map Handle.owned }

@[simp] theorem owned_p_cb (w : World n T D) (h : Fin n) : w.owned.p_cb h = w.p_cb h := by
  show ((w.handles h).map Handle.owned).bind Handle.p_cb = (w.handles h).bind Handle.p_cb
  cases w.handles h <;> rfl

theorem owned_setHandle (w : World n T D) (h : Fin n) (y : Option Handle) :
    (w.setHandle h y).owned = w.owned.setHandle h (y.map Handle.owned) := by
  have hfun : (fun k => (Function.update w.handles h y k).map Handle.owned)
      = Function.update (fun k => (w.handles k).map Handle.owned) h (y.map Handle.owned) := by
    funext k
    by_cases hk : k = h
    · rw [hk, Function.update_self, Function.update_self]
    · rw [Function.update_of_ne hk, Function.update_of_ne hk]
  unfold World.owned World.setHandle
  simp only [hfun]

/-- Without exceptions there is nothing else. -/
theorem owned_of_inv (hinv : Inv w) : w.owned = w := by
  have hfun : (fun h => (w.handles h).map Handle.owned) = w.handles := by
    funext h
    cases hx : w.handles h with
    | none => rfl
    | some x =>
        obtain ⟨obj, cb⟩ := x
        have hfits := hinv.handles h _ hx
        cases cb with
        | none =>
            have hnull : obj = none := hfits
            rw [hnull]
            rfl
        | some b => rfl
  unfold World.owned
  rw [hfun]

theorem owned_handles (w : World n T D) (h : Fin n) :
    w.owned.handles h = none ↔ w.handles h = none :=
  Option.map_eq_none_iff

theorem owned_mayUse (w : World n T D) (t : T) (h : Fin n) : w.owned.mayUse t h ↔ w.mayUse t h := by
  unfold World.mayUse
  rw [ne_eq, owned_handles]
  exact Iff.rfl

theorem owned_mayConstruct (w : World n T D) (t : T) (h : Fin n) :
    w.owned.mayConstruct t h ↔ w.mayConstruct t h := by
  unfold World.mayConstruct
  rw [owned_handles]
  exact Iff.rfl

/-- No thread is in an operation. -/
structure AtRest (w : World n T D) : Prop where
  inv : Inv w.owned
  idle : ∀ t, w.threads t = .idle

theorem AtRest.count {block : ControlBlock D} (hw : AtRest w) (hb : w.blocks.cells b = some block) :
    block.m_count = tally (fun c => c == some b) w.p_cb := by
  rw [← funext (owned_p_cb w)]
  exact settled_count hw.inv (settled_quiet (w := w.owned) hw.idle b) hb

theorem AtRest.gone {block : ControlBlock D} (hw : AtRest w) (hb : w.blocks.cells b = some block)
    (hnone : ∀ h, w.handles h = none) : block.freed = true ∧ w.deletionsOf b = block.spent b := by
  refine settled_gone hw.inv (settled_quiet (w := w.owned) hw.idle b) hb fun h => ?_
  rw [owned_p_cb, World.p_cb, hnone h]
  simp

theorem write_only {v : World n T D} (hw : (v.threads t).writes = some (h, wr))
    (hne : v.threads t ≠ .write h wr) (k : Fin n) (wr' : Write n D) :
    v.threads t ≠ .write k wr' := by
  intro hk
  rw [hk] at hw hne
  obtain ⟨rfl, rfl⟩ := Prod.mk.inj (Option.some.inj hw)
  exact hne rfl

/-- The handles that are left can be destroyed, `h` first. -/
theorem order_from (w : World n T D) (hh : w.handles h ≠ none) :
    ∃ order : List (Fin n), (h :: order).Nodup ∧ ∀ k, k ∈ h :: order ↔ w.handles k ≠ none := by
  refine ⟨(List.finRange n).filter fun k => k != h && (w.handles k).isSome, ?_, fun k => ?_⟩
  · refine List.nodup_cons.mpr ⟨?_, (List.nodup_finRange n).filter _⟩
    simp
  · by_cases hk : k = h
    · rw [hk]
      exact ⟨fun _ => hh, fun _ => List.mem_cons_self⟩
    · simp [hk, Option.isSome_iff_ne_none]

theorem owned_touch {f g : ControlBlock D → World n T D} (hf : ∀ block, (f block).owned = g block) :
    (w.touch b f).owned = w.owned.touch b g := by
  unfold World.touch
  have hcells : w.owned.blocks.cells b = w.blocks.cells b := rfl
  rw [hcells]
  cases w.blocks.cells b with
  | none => rfl
  | some block =>
      dsimp only
      split
      · rfl
      · exact hf block

/-- Without a fault the control block was there. -/
theorem touch_of_safe {f : ControlBlock D → World n T D} (hsafe : (w.touch b f).faulted = false) :
    ∃ block, w.touch b f = f block := by
  unfold World.touch at hsafe ⊢
  split at hsafe
  · rename_i block _
    split at hsafe
    · exact absurd hsafe (by simp)
    · rename_i hfreed
      exact ⟨block, if_neg hfreed⟩
  · exact absurd hsafe (by simp)

theorem touch_faulted {f : ControlBlock D → World n T D}
    (hf : ∀ block, (f block).faulted = w.faulted)
    (hw : w.faulted = true) : (w.touch b f).faulted = true := by
  unfold World.touch
  split
  · split
    · rfl
    · rw [hf]
      exact hw
  · rfl

theorem owned_steal (w : World n T D) (h o : Fin n) : (w.steal h o).owned = w.owned.steal h o := by
  have hset := owned_setHandle (w.setHandle h (w.handles o)) o (some {})
  rw [owned_setHandle w h] at hset
  exact congrArg (fun v => (v.setCounted h (w.counted o)).setCounted o none) hset

theorem owned_create (w : World n T D) (h : Fin n) (pointer : Option Nat) (d : D) :
    (w.create h pointer d).owned = w.owned.create h pointer d := by
  have hset := owned_setHandle w h (some ⟨pointer, some w.blocks.next⟩)
  exact congrArg (fun v => { v.setCounted h (some w.blocks.next) with
    blocks := w.blocks.alloc { deleter := d, p_obj := pointer, managed := pointer }
    adopted := pointer.toList ++ w.adopted }) hset

/-- An operation begins, or it may not. -/
theorem owned_guard {v : World n T D} {c c' : Prop} [Decidable c] [Decidable c'] (hc : c' ↔ c)
    (hv : w' = v.owned) :
    (if c' then some w' else none) = (if c then some v else none).map World.owned := by
  rw [hv, apply_ite (Option.map World.owned)]
  exact if_congr hc rfl rfl

variable [DecidableEq T]

/-- A new control block, if its pointer is new. -/
theorem owned_adopt (w : World n T D) (t : T) (h : Fin n) (pointer : Option Nat) (d : D) {c : Prop}
    [Decidable c] : (if c then some ((w.owned.create h pointer d).goto t .idle) else none)
      = (if c then some ((w.create h pointer d).goto t .idle) else none).map World.owned := by
  rw [← owned_create]
  split <;> rfl

theorem owned_write (w : World n T D) (t : T) (h : Fin n) (wr : Write n D) :
    w.owned.write t h wr = (w.write t h wr).map World.owned := by
  have hset := fun y => congrArg (fun v => some (v.goto t .idle)) (owned_setHandle w h y)
  cases wr with
  | copy o => exact (congrArg (fun v => some (v.goto t (.addRef h))) (owned_setHandle w h _)).symm
  | move o => exact (congrArg (fun v => some (v.goto t .idle)) (owned_steal w h o)).symm
  | null => exact (hset (some {})).symm
  | create pointer d => exact owned_adopt w t h pointer d
  | adopt pointer d =>
      cases pointer with
      | none => exact (hset (some {})).symm
      | some x => exact owned_adopt w t h (some x) d
  | destroy => exact (hset none).symm

theorem owned_fetchSub (w : World n T D) (t : T) (h : Fin n) (wr : Write n D) (b : Nat) :
    (w.fetchSub t h wr b).owned = w.owned.fetchSub t h wr b := owned_touch fun _ => rfl

theorem owned_dispose (w : World n T D) (t : T) (h : Fin n) (wr : Write n D) (b : Nat) :
    (w.dispose t h wr b).owned = w.owned.dispose t h wr b :=
  owned_touch fun block => by cases block.p_obj <;> rfl

theorem owned_free (w : World n T D) (t : T) (h : Fin n) (wr : Write n D) (b : Nat) :
    (w.free t h wr b).owned = w.owned.free t h wr b := owned_touch fun _ => rfl

theorem owned_fetchAdd (w : World n T D) (t : T) (h : Fin n) (b : Nat) :
    (w.fetchAdd t h b).owned = w.owned.fetchAdd t h b := owned_touch fun _ => rfl

theorem owned_advance (w : World n T D) (t : T) :
    w.owned.advance t = (w.advance t).map World.owned := by
  have hthreads : w.owned.threads t = w.threads t := rfl
  unfold World.advance
  rw [hthreads]
  cases w.threads t with
  | idle => rfl
  | release h wr =>
      dsimp only
      rw [owned_p_cb]
      cases w.p_cb h with
      | none => rfl
      | some b => exact congrArg some (owned_fetchSub w t h wr b).symm
  | dispose b h wr => exact congrArg some (owned_dispose w t h wr b).symm
  | free b h wr => exact congrArg some (owned_free w t h wr b).symm
  | write h wr => exact owned_write w t h wr
  | addRef h =>
      dsimp only
      rw [owned_p_cb]
      cases w.p_cb h with
      | none => rfl
      | some b => exact congrArg some (owned_fetchAdd w t h b).symm

theorem owned_call [Inhabited D] (w : World n T D) (t : T) (op : Op n D) :
    w.owned.call t op = (w.call t op).map World.owned := by
  have huse := owned_mayUse w t
  have hnew := owned_mayConstruct w t
  cases op with
  | defaultCtor h => exact owned_guard (hnew h) rfl
  | pointerCtor h pointer => exact owned_guard (hnew h) rfl
  | deleterCtor h pointer d => exact owned_guard (hnew h) rfl
  | copyCtor h o => exact owned_guard (and_congr (hnew h) (huse o)) rfl
  | moveCtor h o => exact owned_guard (and_congr (hnew h) (huse o)) rfl
  | copyAssign h o => exact owned_guard (and_congr (huse h) (huse o)) (by split <;> rfl)
  | moveAssign h o => exact owned_guard (and_congr (huse h) (huse o)) (by split <;> rfl)
  | reset h => exact owned_guard (huse h) rfl
  | resetTo h pointer d => exact owned_guard (huse h) rfl
  | dtor h => exact owned_guard (huse h) rfl

/-- **A step sees only what the handles own.** -/
theorem owned_step [Inhabited D] (w : World n T D) (a : Action n T D) :
    step w.owned a = (step w a).map World.owned := by
  cases a with
  | call t op =>
      have hthreads : w.owned.threads t = w.threads t := rfl
      unfold step
      dsimp only
      rw [hthreads]
      cases w.threads t with
      | idle => exact owned_call w t op
      | _ => rfl
  | advance t => exact owned_advance w t
  | give h t =>
      have hthreads : w.owned.threads (w.owned.owner h) = w.threads (w.owner h) := rfl
      unfold step
      dsimp only
      rw [hthreads]
      cases w.threads (w.owner h) <;> rfl

/-! ## Runs with harmless exceptions -/

theorem inv_act [Inhabited D] {a : Action n T D} (hinv : Inv w.owned) (hs : step w a = some w') :
    Inv w'.owned := by
  have howned : step w.owned a = some w'.owned := by
    rw [owned_step, hs]
    rfl
  exact inv_step hinv (step_moves hinv howned)

/-- What an exception leaves. -/
theorem throw_cases (hs : w.throw t e = some w') :
    ∃ h x d, w.threads t = .write h (.adopt (some x) d) ∧
      ((e = .allocation ∧ w' = (w.setHandle h (some ⟨some x, w.p_cb h⟩)).goto t .idle) ∨
        (e = .deleterCopy ∧ w' =
          { (w.setHandle h (some ⟨some x, some w.blocks.next⟩)).goto t .idle with
          blocks := w.blocks.reserve })) := by
  unfold World.throw at hs
  split at hs
  · rename_i h x d ht
    refine ⟨h, x, d, ht, ?_⟩
    cases e with
    | allocation => exact Or.inl ⟨rfl, (Option.some.inj hs).symm⟩
    | deleterCopy => exact Or.inr ⟨rfl, (Option.some.inj hs).symm⟩
  · exact absurd hs (by simp)

theorem throw_none (hne : ∀ k wr', w.threads t ≠ .write k wr') : w.throw t e = none := by
  unfold World.throw
  split
  · rename_i ht
    exact absurd ht (hne _ _)
  · rfl

theorem throw_some (ht : w.threads t = .write h (.adopt (some x) d)) (e : Failure) :
    ∃ w', w.throw t e = some w' := by
  unfold World.throw
  rw [ht]
  cases e <;> exact ⟨_, rfl⟩

/-- The thread has left the operation. -/
theorem throw_threads (hs : w.throw t e = some w') :
    w'.threads = Function.update w.threads t .idle := by
  obtain ⟨h, x, d, _, ⟨_, rfl⟩ | ⟨_, rfl⟩⟩ := throw_cases hs <;> rfl

/-- **An exception that finds no control block is harmless**: but for `p_obj`, the handle is
null then. -/
theorem inv_throw (hinv : Inv w.owned) (ht : w.threads t = .write h wr) (hcb : w.p_cb h = none)
    (hs : w.throw t .allocation = some w') : Inv w'.owned := by
  obtain ⟨h', x, d, ht', ⟨_, rfl⟩ | ⟨he, _⟩⟩ := throw_cases hs
  · rw [ht] at ht'
    injection ht' with hh _
    subst hh
    have hnull : ((w.setHandle h (some ⟨some x, w.p_cb h⟩)).goto t .idle).owned
        = (w.owned.setHandle h (some {})).goto t .idle := by
      rw [hcb]
      exact congrArg (fun v => v.goto t .idle) (owned_setHandle w h (some ⟨some x, none⟩))
    have htowned : w.owned.threads t = .write h wr := ht
    rw [hnull]
    exact inv_step hinv (.null t h wr htowned _ (Or.inl rfl))
  · exact absurd he (by simp)

theorem inv_reached [Inhabited D] (hr : Reached w) : Inv w.owned := by
  obtain ⟨w₀, hr₀, hr⟩ := hr
  have hinit : Inv w₀.owned := by
    rw [owned_of_inv (inv_reachable hr₀)]
    exact inv_reachable hr₀
  refine hr.invariant (I := fun v => Inv v.owned) hinit fun v a v' _ hinv hs => ?_
  cases a with
  | act a => exact inv_act hinv hs.2
  | throw t e =>
      obtain ⟨⟨rfl, hcb⟩, hs⟩ := hs
      have hthrow : v.throw t .allocation = some v' := hs
      obtain ⟨h, x, d, ht, _⟩ := throw_cases hthrow
      exact inv_throw hinv ht (hcb h _ ht) hthrow

/-! ## One thread at work -/

/-- How many steps a thread takes until its handle is written. -/
def Thread.left : Thread n D → Nat
  | .idle | .addRef _ => 0
  | .write _ _ => 1
  | .free _ _ _ => 2
  | .dispose _ _ _ => 3
  | .release _ _ => 4

/-- The thread is in an operation on `h`, which it began in `w`, and the others are in none. -/
structure Alone (w v : World n T D) (t : T) (h : Fin n) (wr : Write n D) : Prop where
  inv : Inv v.owned
  writes : (v.threads t).writes = some (h, wr)
  others : ∀ u, u ≠ t → v.threads u = .idle
  handles : v.handles = w.handles

/-- Before the handle is written, an operation goes on towards that. -/
theorem advance_before {v : World n T D} (hw : (v.threads t).writes = some (h, wr))
    (hne : ∀ k wr', v.threads t ≠ .write k wr') :
    ∃ v', v.advance t = some v' ∧ (v'.faulted = false →
      ∃ p, p.writes = some (h, wr) ∧ p.left < (v.threads t).left
        ∧ v'.threads = Function.update v.threads t p ∧ v'.handles = v.handles) := by
  unfold World.advance
  cases ht : v.threads t with
  | idle => rw [ht] at hw; exact absurd hw (by simp [Thread.writes])
  | addRef k => rw [ht] at hw; exact absurd hw (by simp [Thread.writes])
  | write k wr' => exact absurd ht (hne k wr')
  | release k wr' =>
      rw [ht] at hw
      obtain ⟨rfl, rfl⟩ := Prod.mk.inj (Option.some.inj hw)
      dsimp only
      cases v.p_cb k with
      | none => exact ⟨_, rfl, fun _ => ⟨.write k wr', rfl, by simp [Thread.left], rfl, rfl⟩⟩
      | some b =>
          refine ⟨_, rfl, fun hsafe => ?_⟩
          obtain ⟨block, heq⟩ := touch_of_safe hsafe
          unfold World.fetchSub
          rw [heq]
          refine ⟨_, ?_, ?_, rfl, rfl⟩
          · split <;> rfl
          · split <;> simp [Thread.left]
  | dispose b k wr' =>
      rw [ht] at hw
      obtain ⟨rfl, rfl⟩ := Prod.mk.inj (Option.some.inj hw)
      refine ⟨_, rfl, fun hsafe => ⟨.free b k wr', rfl, by simp [Thread.left], ?_⟩⟩
      obtain ⟨block, heq⟩ := touch_of_safe hsafe
      unfold World.dispose
      rw [heq]
      split <;> exact ⟨rfl, rfl⟩
  | free b k wr' =>
      rw [ht] at hw
      obtain ⟨rfl, rfl⟩ := Prod.mk.inj (Option.some.inj hw)
      refine ⟨_, rfl, fun hsafe => ?_⟩
      obtain ⟨block, heq⟩ := touch_of_safe hsafe
      unfold World.free
      rw [heq]
      exact ⟨_, rfl, by simp [Thread.left], rfl, rfl⟩

/-- Before its write an operation goes on, still alone. -/
theorem Alone.advance [Inhabited D] {v : World n T D} (hv : Alone w v t h wr)
    (hne : ∀ k wr', v.threads t ≠ .write k wr') :
    ∃ v', v.advance t = some v' ∧ Alone w v' t h wr ∧ (v'.threads t).left < (v.threads t).left := by
  obtain ⟨v', hs, hgoes⟩ := advance_before hv.writes hne
  have hinv : Inv v'.owned := inv_act (a := .advance t) hv.inv hs
  obtain ⟨p, hp, hleft, hthreads, hhandles⟩ := hgoes hinv.faultless
  have hself : v'.threads t = p := by rw [hthreads, Function.update_self]
  refine ⟨v', hs, ⟨hinv, by rw [hself, hp], fun u hu => ?_, hhandles.trans hv.handles⟩, ?_⟩
  · rw [hthreads, Function.update_of_ne hu]
    exact hv.others u hu
  · rw [hself]
    exact hleft

/-- **An operation ends.** It goes on to its write, and where the write leaves the thread idle,
four steps are enough. -/
theorem run_alone [Inhabited D] {body : World n T D → Option (World n T D)} {Q : World n T D → Prop}
    {v : World n T D} (hbefore : ∀ v, (∀ k wr', v.threads t ≠ .write k wr') → body v = v.advance t)
    (hwrite : ∀ v, Alone w v t h wr → v.threads t = .write h wr →
      ∃ v', body v = some v' ∧ v'.threads t = .idle ∧ Q v')
    (hv : Alone w v t h wr) : Q (Loop.iterate body 4 v) := by
  have hgo : ∀ s, Alone w s t h wr → ∃ s', body s = some s' ∧
      (Alone w s' t h wr ∨ s'.threads t = .idle ∧ Q s')
        ∧ (s'.threads t).left < (s.threads t).left := by
    intro s hs
    by_cases ht : s.threads t = .write h wr
    · obtain ⟨s', hs', hidle, hq⟩ := hwrite s hs ht
      refine ⟨s', hs', Or.inr ⟨hidle, hq⟩, ?_⟩
      rw [hidle, ht]
      exact Nat.zero_lt_one
    · have hne := write_only hs.writes ht
      obtain ⟨s', hs', halone, hleft⟩ := hs.advance hne
      exact ⟨s', (hbefore s hne).trans hs', Or.inl halone, hleft⟩
  have hpass : ∀ s s', (Alone w s t h wr ∨ s.threads t = .idle ∧ Q s) → body s = some s' →
      (Alone w s' t h wr ∨ s'.threads t = .idle ∧ Q s')
        ∧ (s'.threads t).left < (s.threads t).left := by
    intro s s' hi hs
    rcases hi with halone | ⟨hidle, _⟩
    · obtain ⟨s₁, hs₁, hnext⟩ := hgo s halone
      rw [hs₁] at hs
      rw [← Option.some.inj hs]
      exact hnext
    · -- an idle thread has no step
      rw [hbefore s (by rw [hidle]; simp), World.advance, hidle] at hs
      exact absurd hs (by simp)
  have hend := Loop.iterate_exits (fun s => (s.threads t).left) hpass 4 v (Or.inl hv)
    (by cases v.threads t <;> simp [Thread.left])
  have hlast := Loop.iterate_invariant
    (I := fun s => Alone w s t h wr ∨ s.threads t = .idle ∧ Q s) 4
    (Or.inl hv) fun s s' hi hs => (hpass s s' hi hs).1
  rcases hlast with halone | ⟨_, hq⟩
  · obtain ⟨s', hs', _⟩ := hgo _ halone
    rw [hend] at hs'
    exact absurd hs' (by simp)
  · exact hq

/-! ## Handles at rest -/

/-- The call of an operation that begins with the release. -/
theorem AtRest.call [Inhabited D] {op : Op n D} (hw : AtRest w)
    (hs : w.call t op = some (w.goto t (.release h wr))) :
    Alone w (w.goto t (.release h wr)) t h wr where
  inv := by
    refine inv_act (a := .call t op) hw.inv ?_
    unfold step
    dsimp only
    rw [hw.idle t]
    exact hs
  writes := by
    rw [goto_self]
    rfl
  others := fun u hu => (Function.update_of_ne hu ..).trans (hw.idle u)
  handles := rfl

/-- What the last step of an operation leaves. -/
theorem Alone.rest {v : World n T D} (hv : Alone w v t h wr) (hinv : Inv w'.owned)
    (hthreads : w'.threads = Function.update v.threads t .idle) : AtRest w' where
  inv := hinv
  idle := by
    intro u
    rw [hthreads]
    by_cases hu : u = t
    · rw [hu, Function.update_self]
    · rw [Function.update_of_ne hu]
      exact hv.others u hu

/-- **A destructor runs to its end.** -/
theorem AtRest.destroy [Inhabited D] (hw : AtRest w) (hh : w.handles h ≠ none) :
    AtRest (w.destroy h) ∧ (w.destroy h).handles = Function.update w.handles h none := by
  have hcall : w.call (w.owner h) (.dtor h) = some (w.goto (w.owner h) (.release h .destroy)) :=
    if_pos ⟨rfl, hh⟩
  unfold World.destroy
  rw [hcall]
  refine run_alone (Q := fun v => AtRest v ∧ v.handles = Function.update w.handles h none)
    (fun _ _ => rfl) (fun v hv ht => ?_) (hw.call hcall)
  have hs : v.advance (w.owner h) = some ((v.setHandle h none).goto (w.owner h) .idle) := by
    unfold World.advance
    rw [ht]
    rfl
  refine ⟨_, hs, goto_self _ _ _, hv.rest (inv_act (a := .advance _) hv.inv hs) rfl, ?_⟩
  rw [← hv.handles]
  rfl

/-- **Destructors in any order** find what they need, and leave no handle. -/
theorem AtRest.destroyAll [Inhabited D] (hw : AtRest w) {order : List (Fin n)} (hnd : order.Nodup)
    (hall : ∀ k, k ∈ order ↔ w.handles k ≠ none) :
    AtRest (w.destroyAll order) ∧ ∀ k, (w.destroyAll order).handles k = none := by
  induction order generalizing w with
  | nil =>
      refine ⟨hw, fun k => ?_⟩
      have hk : ¬w.handles k ≠ none := fun hne => absurd ((hall k).mpr hne) (by simp)
      exact not_not.mp hk
  | cons h order ih =>
      obtain ⟨hnew, hnd⟩ := List.nodup_cons.mp hnd
      obtain ⟨hw', hhandles⟩ := hw.destroy ((hall h).mp List.mem_cons_self)
      refine ih hw' hnd fun k => ?_
      rw [hhandles]
      by_cases hk : k = h
      · rw [hk, Function.update_self]
        exact ⟨fun hmem => absurd hmem hnew, fun hne => absurd rfl hne⟩
      · rw [Function.update_of_ne hk, ← hall k, List.mem_cons]
        exact ⟨Or.inr, fun hmem => hmem.resolve_left hk⟩

/-! ## Faults -/

theorem write_faulted (hs : w.write t h wr = some w') : w'.faulted = w.faulted := by
  cases wr with
  | create pointer d =>
      obtain ⟨_, rfl⟩ := Transition.of_guard hs
      rfl
  | adopt pointer d =>
      cases pointer with
      | none =>
          rw [← Option.some.inj hs]
          rfl
      | some x =>
          obtain ⟨_, rfl⟩ := Transition.of_guard hs
          rfl
  | _ =>
      rw [← Option.some.inj hs]
      rfl

/-- A fault is not forgotten. -/
theorem advance_faulted (hf : w.faulted = true) (hs : w.advance t = some w') :
    w'.faulted = true := by
  unfold World.advance at hs
  split at hs
  · exact absurd hs (by simp)
  · split at hs
    · rw [← Option.some.inj hs]
      exact touch_faulted (fun _ => rfl) hf
    · rw [← Option.some.inj hs]
      exact hf
  · rw [← Option.some.inj hs]
    exact touch_faulted (fun block => by split <;> rfl) hf
  · rw [← Option.some.inj hs]
    exact touch_faulted (fun _ => rfl) hf
  · rw [write_faulted hs]
    exact hf
  · split at hs
    · rw [← Option.some.inj hs]
      exact touch_faulted (fun _ => rfl) hf
    · rw [← Option.some.inj hs]
      exact hf

theorem iterate_faulted (k : Nat) (hf : w.faulted = true) :
    (Loop.iterate (fun v => v.advance t) k w).faulted = true :=
  Loop.iterate_invariant (I := fun v : World n T D => v.faulted = true) k hf
    fun _ _ hv hs => advance_faulted hv hs

theorem destroy_faulted [Inhabited D] (hf : w.faulted = true) : (w.destroy h).faulted = true := by
  unfold World.destroy
  split
  · rename_i v hcall
    obtain ⟨_, rfl⟩ := Transition.of_guard hcall
    exact iterate_faulted 4 hf
  · exact hf

theorem destroyAll_faulted [Inhabited D] (hf : w.faulted = true) (order : List (Fin n)) :
    (w.destroyAll order).faulted = true := by
  induction order generalizing w with
  | nil => exact hf
  | cons h order ih => exact ih (destroy_faulted hf)

/-- A destructor releases what is in `p_cb`, control block or not. -/
theorem destroy_raw [Inhabited D] (hcb : w.p_cb h = some b) (hb : w.blocks.cells b = none) :
    (w.destroy h).faulted = true := by
  have hh : w.handles h ≠ none := by
    intro hnone
    rw [World.p_cb, hnone] at hcb
    exact absurd hcb (by simp)
  have hcall : w.call (w.owner h) (.dtor h) = some (w.goto (w.owner h) (.release h .destroy)) :=
    if_pos ⟨rfl, hh⟩
  have hs : (w.goto (w.owner h) (.release h .destroy)).advance (w.owner h)
      = some { w.goto (w.owner h) (.release h .destroy) with faulted := true } := by
    unfold World.advance
    rw [goto_self]
    have hcb' : (w.goto (w.owner h) (.release h .destroy)).p_cb h = some b := hcb
    have hb' : (w.goto (w.owner h) (.release h .destroy)).blocks.cells b = none := hb
    dsimp only
    rw [hcb']
    dsimp only
    rw [World.fetchSub, World.touch, hb']
  unfold World.destroy
  rw [hcall]
  dsimp only
  rw [Loop.iterate, hs]
  exact iterate_faulted 3 rfl

/-! ## After the exception -/

/-- The exception comes once the old reference has been given up, in `v`. -/
theorem AtRest.resetThrow [Inhabited D] (hw : AtRest w) (hh : w.handles h ≠ none) (x : Nat) (d : D)
    (e : Failure) : ∃ v, Alone w v (w.owner h) h (.adopt (some x) d)
      ∧ v.threads (w.owner h) = .write h (.adopt (some x) d)
      ∧ v.throw (w.owner h) e = some (w.resetThrow h x d e) := by
  have hcall : w.call (w.owner h) (.resetTo h (some x) d)
      = some (w.goto (w.owner h) (.release h (.adopt (some x) d))) := if_pos ⟨rfl, hh⟩
  unfold World.resetThrow
  rw [hcall]
  refine run_alone (Q := fun v' => ∃ v, Alone w v (w.owner h) h (.adopt (some x) d)
      ∧ v.threads (w.owner h) = .write h (.adopt (some x) d) ∧ v.throw (w.owner h) e = some v')
    (fun v hne => ?_) (fun v hv ht => ?_) (hw.call hcall)
  · rw [World.failing, throw_none hne]
  · obtain ⟨v', hs⟩ := throw_some ht e
    refine ⟨v', ?_, by rw [throw_threads hs, Function.update_self], v, hv, ht, hs⟩
    rw [World.failing, hs]

/-- What a client relies on when `reset(pointer, d)` of `h`, called in `w`, has thrown. -/
structure Safe [Inhabited D] (w w' : World n T D) (h : Fin n) : Prop where
  /-- The count of a block is the number of handles that point to it. -/
  count : ∀ b block, w'.blocks.cells b = some block → block.freed = false →
    block.m_count = tally (fun c => c == some b) w'.p_cb
  /-- The handle does not point to the block it has given up. -/
  given : ∀ b, w.p_cb h = some b → w'.p_cb h ≠ some b
  /-- The destructors, in any order, operate on control blocks only, and then every block has been
  freed, and its deleter called on its pointer and only then. -/
  destroyed : ∀ order : List (Fin n), order.Nodup → (∀ k, k ∈ order ↔ w'.handles k ≠ none) →
    (w'.destroyAll order).faulted = false
      ∧ ∀ b block, (w'.destroyAll order).blocks.cells b = some block →
        block.freed = true ∧ (w'.destroyAll order).deletionsOf b = block.spent b

theorem throw_p_cb (hs : w.throw t e = some w') (ht : w.threads t = .write h wr) :
    w'.p_cb h = match e with
      | .allocation => w.p_cb h
      | .deleterCopy => some w.blocks.next := by
  obtain ⟨h', x, d, ht', hw⟩ := throw_cases hs
  rw [ht] at ht'
  injection ht' with hh _
  subst hh
  have hself : ∀ y, (Function.update w.handles h (some y) h).bind Handle.p_cb = y.p_cb := by
    intro y
    rw [Function.update_self]
    rfl
  rcases hw with ⟨rfl, rfl⟩ | ⟨rfl, rfl⟩
  · exact hself _
  · exact hself _

/-- Raw memory in a handle is found by the first destructor. -/
theorem not_safe_raw [Inhabited D] (hcb : w'.p_cb h = some b) (hb : w'.blocks.cells b = none) :
    ¬ Safe w w' h := by
  intro hsafe
  have hh : w'.handles h ≠ none := by
    intro hnone
    rw [World.p_cb, hnone] at hcb
    exact absurd hcb (by simp)
  obtain ⟨order, hnd, hall⟩ := order_from w' hh
  have hfault : (w'.destroyAll (h :: order)).faulted = true :=
    destroyAll_faulted (destroy_raw hcb hb) order
  rw [(hsafe.destroyed _ hnd hall).1] at hfault
  exact absurd hfault (by simp)

theorem AtRest.safe [Inhabited D] (hw' : AtRest w') (hcb : w.p_cb h = none) : Safe w w' h where
  count := fun _ _ hb _ => hw'.count hb
  given := fun b hb => by
    rw [hcb] at hb
    exact absurd hb (by simp)
  destroyed := fun order hnd hall => by
    obtain ⟨hlast, hnone⟩ := hw'.destroyAll hnd hall
    exact ⟨hlast.inv.faultless, fun b block hb => hlast.gone hb hnone⟩

/--
**When a reset that throws is safe.**

In every state that threads reach, with safe exceptions on the way: if the allocation throws
and the handle has had no control block.
-/
theorem reset_throw_iff [Inhabited D] (w : World n T D) (hr : Reached w)
    (hquiet : ∀ t, w.threads t = .idle) (h : Fin n) (hh : w.handles h ≠ none) (x : Nat) (d : D)
    (e : Failure) : Safe w (w.resetThrow h x d e) h ↔ e = .allocation ∧ w.p_cb h = none := by
  have hw : AtRest w := ⟨inv_reached hr, hquiet⟩
  obtain ⟨v, hv, ht, hs⟩ := hw.resetThrow hh x d e
  have hsame : v.p_cb h = w.p_cb h := by rw [World.p_cb, World.p_cb, hv.handles]
  have hcb := throw_p_cb hs ht
  constructor
  · intro hsafe
    cases e with
    | allocation =>
        refine ⟨rfl, ?_⟩
        cases hb : w.p_cb h with
        | none => rfl
        | some b => exact absurd (hcb.trans (hsame.trans hb)) (hsafe.given b hb)
    | deleterCopy =>
        obtain ⟨_, _, _, _, ⟨he, _⟩ | ⟨_, hafter⟩⟩ := throw_cases hs
        · exact absurd he (by simp)
        · refine absurd hsafe (not_safe_raw hcb ?_)
          rw [hafter]
          exact Heap.next_free v.blocks
  · rintro ⟨rfl, hnull⟩
    exact (hv.rest (inv_throw hv.inv ht (hsame.trans hnull) hs) (throw_threads hs)).safe hnull

/-- The other handle keeps its block. -/
theorem reset_throw_iff_empty : ∃ w : World 2 (Fin 1) Nat, Reached w ∧ w.p_cb 0 = some 0
    ∧ Safe w (w.resetThrow 1 8 4 .allocation) 1 := by
  have hrun : ∃ w,
      Transition.Reach (Transition.Of step) ({ owner := fun _ => 0 } : World 2 (Fin 1) Nat) w ∧
        ((∀ t, w.threads t = .idle)
          ∧ w.handles 1 ≠ none ∧ w.p_cb 0 = some 0 ∧ w.p_cb 1 = none) := by
    refine Transition.exists_reach_of_exec [.call 0 (.deleterCtor 0 (some 7) 3), .advance 0,
      .call 0 (.defaultCtor 1), .advance 0] ?_
    decide
  obtain ⟨w, hr, hquiet, hh, hold, hnull⟩ := hrun
  have hreached : Reached w := ⟨w, ⟨_, hr⟩, .init⟩
  exact ⟨w, hreached, hold, (reset_throw_iff w hreached hquiet 1 hh 8 4 _).mpr ⟨rfl, hnull⟩⟩

/-- The only owner of a block resets, and the allocation throws: the block has been freed, and the
handle still points to it. Its destructor touches the block once more. -/
theorem reset_throw_dangles : ∃ w : World 1 (Fin 1) Nat, Reachable w ∧ (∀ t, w.threads t = .idle)
    ∧ w.handles 0 ≠ none ∧ ¬ Safe w (w.resetThrow 0 8 4 .allocation) 0
    ∧ ((w.resetThrow 0 8 4 .allocation).blocks.cells 0).any ControlBlock.freed = true
    ∧ (w.resetThrow 0 8 4 .allocation).p_cb 0 = some 0
    ∧ ((w.resetThrow 0 8 4 .allocation).destroyAll [0]).faulted = true := by
  have hrun : ∃ w,
      Transition.Reach (Transition.Of step) ({ owner := fun _ => 0 } : World 1 (Fin 1) Nat) w ∧
        ((∀ t, w.threads t = .idle) ∧ w.handles 0 ≠ none ∧ w.p_cb 0 = some 0
          ∧ ((w.resetThrow 0 8 4 .allocation).blocks.cells 0).any ControlBlock.freed = true
          ∧ (w.resetThrow 0 8 4 .allocation).p_cb 0 = some 0
          ∧ ((w.resetThrow 0 8 4 .allocation).destroyAll [0]).faulted = true) := by
    refine Transition.exists_reach_of_exec [.call 0 (.deleterCtor 0 (some 7) 3), .advance 0] ?_
    decide
  obtain ⟨w, hr, hquiet, hh, hold, hfreed, hcb, hfault⟩ := hrun
  exact ⟨w, ⟨_, hr⟩, hquiet, hh, fun hsafe => hsafe.given 0 hold hcb, hfreed, hcb, hfault⟩

end QuickStructs.SharedPtr
