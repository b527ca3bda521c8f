import QuickStructs.Io.SocketRAII

/-!
# Every descriptor is closed once

A handle that holds a number and an open number belong together, one to one. The operations
come to three things: a handle closes what it holds, a handle that holds nothing gets a number
that was just returned, or what one handle holds goes to another that holds nothing. Each keeps
numbers and handles together, whether or not the number was in use before.

An assignment closes the old number when it has received the new one. The two are different,
since the old one was open when the new one was returned.
-/

namespace QuickStructs.SocketRAII

open Lib

variable {H : Type} {w w' : World H} {h o : H} {x y : Socket} {fd : Int} {v : Option Socket}

/-- Handle `h` holds the descriptor `fd`. -/
def World.holds (w : World H) (h : H) (fd : Int) : Prop := 0 ≤ fd ∧ w.handles h = some ⟨fd⟩

/-- The handles hold what is open, one each. -/
structure Inv (w : World H) : Prop where
  sound : w.os.Sound
  /-- What a handle holds is open. -/
  live : ∀ h fd, w.holds h fd → ∃ c, w.os.table fd = some c
  /-- What is open is held. -/
  held : ∀ fd c, w.os.table fd = some c → ∃ h, w.holds h fd
  /-- No two handles hold the same. -/
  apart : ∀ h o fd, w.holds h fd → w.holds o fd → h = o

theorem inv_init : Inv ({} : World H) where
  sound := Descriptors.sound_none
  live := fun _ _ h => absurd h.2 (by simp)
  held := fun _ _ h => absurd h (by simp)
  apart := fun _ _ _ h => absurd h.2 (by simp)

theorem holds_valid (hx : w.handles h = some x) (hv : x.valid = true) : w.holds h x.fd :=
  ⟨of_decide_eq_true hv, hx⟩

/-- A handle that holds nothing. -/
def World.empty (w : World H) (h : H) : Prop := ∀ fd, ¬w.holds h fd

theorem empty_none (hx : w.handles h = none) : w.empty h := by
  rintro fd ⟨_, hfd⟩
  rw [hx] at hfd
  exact absurd hfd (by simp)

/-- What is open when a handle has closed what it holds. -/
theorem table_closeHeld (hw : Inv w) (hx : w.handles h = some x) (fd : Int) :
    (w.closeHeld x).os.table fd = if x.valid = true ∧ fd = x.fd then none else w.os.table fd := by
  unfold World.closeHeld
  by_cases hval : x.valid = true
  · obtain ⟨c, hc⟩ := hw.live h x.fd (holds_valid hx hval)
    rw [if_pos hval]
    by_cases hfd : fd = x.fd
    · rw [if_pos ⟨hval, hfd⟩, hfd]
      exact Descriptors.close_self hc
    · rw [if_neg fun hboth => hfd hboth.2]
      exact Descriptors.close_of_ne hc hfd
  · rw [if_neg hval, if_neg fun hboth => hval hboth.1]

theorem sound_closeHeld (hw : Inv w) (hx : w.handles h = some x) : (w.closeHeld x).os.Sound := by
  unfold World.closeHeld
  split
  · rename_i hval
    obtain ⟨c, hc⟩ := hw.live h x.fd (holds_valid hx hval)
    exact Descriptors.sound_close hw.sound hc
  · exact hw.sound

theorem handles_closeHeld (w : World H) (x : Socket) : (w.closeHeld x).handles = w.handles := by
  unfold World.closeHeld
  split <;> rfl

variable [DecidableEq H]

theorem holds_set_self : (w.set h v).holds h fd ↔ 0 ≤ fd ∧ v = some ⟨fd⟩ := by
  show 0 ≤ fd ∧ Function.update w.handles h v h = _ ↔ _
  rw [Function.update_self]

theorem holds_set_of_ne (ho : o ≠ h) : (w.set h v).holds o fd ↔ w.holds o fd := by
  show 0 ≤ fd ∧ Function.update w.handles h v o = _ ↔ _
  rw [Function.update_of_ne ho]
  rfl

theorem set_set (w : World H) (h : H) (a b : Option Socket) : (w.set h a).set h b = w.set h b := by
  unfold World.set
  simp only [Function.update_idem]

/-- A handle that is cleared holds nothing. -/
theorem empty_set : ((w.set h (some ⟨-1⟩)).empty h) := by
  intro fd hfd
  obtain ⟨hpos, heq⟩ := holds_set_self.mp hfd
  have hneg : (-1 : Int) = fd := congrArg Socket.fd (Option.some.inj heq)
  omega

/-! ## What the operations come to -/

/-- **A handle closes what it holds.** -/
theorem inv_closeHeld (hw : Inv w) (hx : w.handles h = some x)
    (hv : ∀ fd, 0 ≤ fd → v ≠ some ⟨fd⟩) : Inv ((w.closeHeld x).set h v) := by
  have hempty : ∀ fd, ¬((w.closeHeld x).set h v).holds h fd := fun fd hfd =>
    hv fd (holds_set_self.mp hfd).1 (holds_set_self.mp hfd).2
  -- the other handles hold what they held
  have hother : ∀ o fd, ((w.closeHeld x).set h v).holds o fd ↔ o ≠ h ∧ w.holds o fd := by
    intro o fd
    by_cases ho : o = h
    · rw [ho]
      exact iff_of_false (hempty fd) fun hc => hc.1 rfl
    · rw [holds_set_of_ne ho]
      unfold World.holds
      rw [handles_closeHeld]
      exact ⟨fun hfd => ⟨ho, hfd⟩, fun hfd => hfd.2⟩
  have htable : ∀ fd, ((w.closeHeld x).set h v).os.table fd
      = if x.valid = true ∧ fd = x.fd then none else w.os.table fd := table_closeHeld hw hx
  refine ⟨sound_closeHeld hw hx, fun o fd ho => ?_, fun fd c hc => ?_, fun a b fd ha hb => ?_⟩
  · obtain ⟨hne, hold⟩ := (hother o fd).mp ho
    obtain ⟨c, hc⟩ := hw.live o fd hold
    refine ⟨c, ?_⟩
    rw [htable, if_neg]
    · exact hc
    · rintro ⟨hval, rfl⟩
      exact hne (hw.apart o h x.fd hold (holds_valid hx hval))
  · rw [htable] at hc
    split at hc
    · exact absurd hc (by simp)
    · rename_i hstill
      obtain ⟨o, ho⟩ := hw.held fd c hc
      refine ⟨o, (hother o fd).mpr ⟨fun hoh => hstill ?_, ho⟩⟩
      -- what this handle holds it has closed
      have hfd := ho.2
      rw [hoh, hx] at hfd
      have heq : x = ⟨fd⟩ := Option.some.inj hfd
      rw [heq]
      exact ⟨decide_eq_true ho.1, rfl⟩
  · obtain ⟨_, ha'⟩ := (hother a fd).mp ha
    obtain ⟨_, hb'⟩ := (hother b fd).mp hb
    exact hw.apart a b fd ha' hb'

/-- A handle that holds nothing gets no descriptor. -/
theorem inv_set_negative (hw : Inv w) (hempty : w.empty h) (hneg : ∀ fd, 0 ≤ fd → v ≠ some ⟨fd⟩) :
    Inv (w.set h v) := by
  have hsame : ∀ o fd, (w.set h v).holds o fd ↔ w.holds o fd := by
    intro o fd
    by_cases ho : o = h
    · rw [ho]
      exact iff_of_false (fun hfd => hneg fd (holds_set_self.mp hfd).1 (holds_set_self.mp hfd).2)
        (hempty fd)
    · exact holds_set_of_ne ho
  refine ⟨hw.sound, fun o fd ho => hw.live o fd ((hsame o fd).mp ho), fun fd c hc => ?_,
    fun a b fd ha hb => hw.apart a b fd ((hsame a fd).mp ha) ((hsame b fd).mp hb)⟩
  obtain ⟨o, ho⟩ := hw.held fd c hc
  exact ⟨o, (hsame o fd).mpr ho⟩

/-- **A handle that holds nothing gets a number that was just returned.** -/
theorem inv_receive (hw : Inv w) (hempty : w.empty h) (hfree : w.mayReceive fd) :
    Inv ((w.receive fd).set h (some ⟨fd⟩)) := by
  unfold World.receive
  by_cases hpos : 0 ≤ fd
  · have hnone := hfree hpos
    rw [if_pos hpos]
    have hown : ∀ o fd', ({ w with os := w.os.issue fd }.set h (some ⟨fd⟩)).holds o fd'
        ↔ o = h ∧ fd' = fd ∨ o ≠ h ∧ w.holds o fd' := by
      intro o fd'
      by_cases ho : o = h
      · rw [ho, holds_set_self]
        constructor
        · rintro ⟨_, heq⟩
          exact Or.inl ⟨rfl, (congrArg Socket.fd (Option.some.inj heq)).symm⟩
        · rintro (⟨_, rfl⟩ | ⟨hne, _⟩)
          · exact ⟨hpos, rfl⟩
          · exact absurd rfl hne
      · rw [holds_set_of_ne ho]
        constructor
        · exact fun hold => Or.inr ⟨ho, hold⟩
        · rintro (⟨heq, _⟩ | ⟨_, hold⟩)
          · exact absurd heq ho
          · exact hold
    -- the number was not open, so nobody held it
    have hnobody : ∀ o, ¬w.holds o fd := by
      intro o ho
      obtain ⟨c, hc⟩ := hw.live o fd ho
      rw [hnone] at hc
      exact absurd hc (by simp)
    refine ⟨Descriptors.sound_issue hw.sound hnone, fun o fd' ho => ?_, fun fd' c hc => ?_,
      fun a b fd' ha hb => ?_⟩
    · rcases (hown o fd').mp ho with ⟨_, rfl⟩ | ⟨_, hold⟩
      · exact ⟨_, Descriptors.issue_self _ _⟩
      · obtain ⟨c, hc⟩ := hw.live o fd' hold
        have hne : fd' ≠ fd := fun heq => hnobody o (heq ▸ hold)
        exact ⟨c, (Descriptors.issue_of_ne hne).trans hc⟩
    · by_cases hne : fd' = fd
      · exact ⟨h, (hown h fd').mpr (Or.inl ⟨rfl, hne⟩)⟩
      · obtain ⟨o, ho⟩ := hw.held fd' c ((Descriptors.issue_of_ne hne).symm.trans hc)
        refine ⟨o, (hown o fd').mpr (Or.inr ⟨fun hoh => hempty fd' (hoh ▸ ho), ho⟩)⟩
    · rcases (hown a fd').mp ha with ⟨rfl, rfl⟩ | ⟨_, ha'⟩
      · rcases (hown b fd').mp hb with ⟨rfl, _⟩ | ⟨_, hb'⟩
        · rfl
        · exact absurd hb' (hnobody b)
      · rcases (hown b fd').mp hb with ⟨rfl, rfl⟩ | ⟨_, hb'⟩
        · exact absurd ha' (hnobody a)
        · exact hw.apart a b fd' ha' hb'
  · rw [if_neg hpos]
    refine inv_set_negative hw hempty fun fd' hpos' heq => hpos ?_
    have hfd : fd = fd' := congrArg Socket.fd (Option.some.inj heq)
    rw [hfd]
    exact hpos'

/-- **What one handle holds goes to another that holds nothing.** -/
theorem inv_pass (hw : Inv w) (hempty : w.empty h) (hne : h ≠ o) (hy : w.handles o = some y) :
    Inv ((w.set h (some ⟨y.fd⟩)).set o (some ⟨-1⟩)) := by
  have hown : ∀ a fd, ((w.set h (some ⟨y.fd⟩)).set o (some ⟨-1⟩)).holds a fd
      ↔ a = h ∧ w.holds o fd ∨ a ≠ h ∧ a ≠ o ∧ w.holds a fd := by
    intro a fd
    by_cases hao : a = o
    · rw [hao]
      refine iff_of_false (empty_set fd) ?_
      rintro (⟨heq, _⟩ | ⟨_, hno, _⟩)
      · exact hne heq.symm
      · exact hno rfl
    · rw [holds_set_of_ne hao]
      by_cases hah : a = h
      · rw [hah, holds_set_self]
        unfold World.holds
        rw [hy]
        exact ⟨fun hfd => Or.inl ⟨rfl, hfd⟩,
          fun hfd => hfd.elim (fun hc => hc.2) fun hc => absurd rfl hc.1⟩
      · rw [holds_set_of_ne hah]
        exact ⟨fun hfd => Or.inr ⟨hah, hao, hfd⟩,
          fun hfd => hfd.elim (fun hc => absurd hc.1 hah) fun hc => hc.2.2⟩
  refine ⟨hw.sound, fun a fd ha => ?_, fun fd c hc => ?_, fun a b fd ha hb => ?_⟩
  · rcases (hown a fd).mp ha with ⟨_, ho⟩ | ⟨_, _, ha'⟩
    · exact hw.live o fd ho
    · exact hw.live a fd ha'
  · obtain ⟨a, ha⟩ := hw.held fd c hc
    by_cases hao : a = o
    · exact ⟨h, (hown h fd).mpr (Or.inl ⟨rfl, hao ▸ ha⟩)⟩
    · exact ⟨a, (hown a fd).mpr (Or.inr ⟨fun hah => hempty fd (hah ▸ ha), hao, ha⟩)⟩
  · rcases (hown a fd).mp ha with ⟨rfl, ha'⟩ | ⟨_, hao, ha'⟩
    · rcases (hown b fd).mp hb with ⟨rfl, _⟩ | ⟨_, hbo, hb'⟩
      · rfl
      · exact absurd (hw.apart b o fd hb' ha') hbo
    · rcases (hown b fd).mp hb with ⟨rfl, hb'⟩ | ⟨_, _, hb'⟩
      · exact absurd (hw.apart a o fd ha' hb') hao
      · exact hw.apart a b fd ha' hb'

/-- The old number is another than the new one, so it may be closed first. -/
theorem assign_eq (hw : Inv w) (hx : w.handles h = some x) (hfree : w.mayReceive fd) :
    (w.receive fd).assign h x fd
      = (((w.closeHeld x).set h (some ⟨-1⟩)).receive fd).set h (some ⟨fd⟩) := by
  unfold World.assign World.receive World.closeHeld
  by_cases hpos : 0 ≤ fd
  · rw [if_pos hpos, if_pos hpos]
    by_cases hval : x.valid = true
    · rw [if_pos hval, if_pos hval]
      obtain ⟨c, hc⟩ := hw.live h x.fd (holds_valid hx hval)
      have hne : x.fd ≠ fd := by
        intro heq
        rw [heq, hfree hpos] at hc
        exact absurd hc (by simp)
      unfold World.set
      simp only [Descriptors.close_issue hc hne, Function.update_idem]
    · rw [if_neg hval, if_neg hval]
      unfold World.set
      simp only [Function.update_idem]
  · rw [if_neg hpos, if_neg hpos, set_set]

theorem cleared (fd : Int) (hpos : 0 ≤ fd) : some (⟨-1⟩ : Socket) ≠ some ⟨fd⟩ := by
  intro heq
  have hneg : (-1 : Int) = fd := congrArg Socket.fd (Option.some.inj heq)
  omega

theorem inv_assign (hw : Inv w) (hx : w.handles h = some x) (hfree : w.mayReceive fd) :
    Inv ((w.receive fd).assign h x fd) := by
  rw [assign_eq hw hx hfree]
  refine inv_receive (inv_closeHeld hw hx cleared) empty_set fun hpos => ?_
  -- a number that was not open is not open when another was closed
  show (w.closeHeld x).os.table fd = none
  rw [table_closeHeld hw hx]
  split
  · rfl
  · exact hfree hpos

/-- **Every operation keeps numbers and handles together.** -/
theorem inv_step {op : Op H} (hw : Inv w) (hs : step w op = some w') : Inv w' := by
  cases op with
  | defaultCtor h =>
      rw [step] at hs
      split at hs
      · rename_i hx
        injection hs with hs
        rw [← hs]
        exact inv_set_negative hw (empty_none hx) cleared
      · exact absurd hs (by simp)
  | ctor h fd =>
      rw [step] at hs
      split at hs
      · rename_i hx
        obtain ⟨hfree, rfl⟩ := Transition.of_guard hs
        exact inv_receive hw (empty_none hx) hfree
      · exact absurd hs (by simp)
  | moveCtor h o =>
      rw [step] at hs
      split at hs
      · rename_i y hx hy
        injection hs with hs
        rw [← hs]
        refine inv_pass hw (empty_none hx) (fun hho => ?_) hy
        rw [hho, hy] at hx
        exact absurd hx (by simp)
      · exact absurd hs (by simp)
  | moveAssign h o =>
      rw [step] at hs
      split at hs
      · rename_i x y hx hy
        injection hs with hs
        rw [← hs]
        unfold World.moveAssign
        split
        · rename_i hne
          have hclosed := inv_closeHeld hw hx cleared
          have hy' : ((w.closeHeld x).set h (some ⟨-1⟩)).handles o = some y := by
            show Function.update (w.closeHeld x).handles h _ o = some y
            rw [Function.update_of_ne (Ne.symm hne), handles_closeHeld]
            exact hy
          have hpass := inv_pass hclosed empty_set hne hy'
          rw [set_set] at hpass
          exact hpass
        · exact hw
      · exact absurd hs (by simp)
  | assign h newfd =>
      rw [step] at hs
      split at hs
      · rename_i x hx
        obtain ⟨hfree, rfl⟩ := Transition.of_guard hs
        exact inv_assign hw hx hfree
      · exact absurd hs (by simp)
  | reset h newfd =>
      rw [step] at hs
      split at hs
      · rename_i x hx
        obtain ⟨hfree, rfl⟩ := Transition.of_guard hs
        exact inv_assign hw hx hfree
      · exact absurd hs (by simp)
  | createSocket h fd =>
      rw [step] at hs
      split at hs
      · rename_i x hx
        obtain ⟨hfree, rfl⟩ := Transition.of_guard hs
        unfold World.createSocket
        split
        · rename_i hneg
          unfold World.receive
          rw [if_neg (by omega)]
          exact hw
        · exact inv_assign hw hx hfree
      · exact absurd hs (by simp)
  | dtor h =>
      obtain ⟨x, hx, rfl⟩ := Option.map_eq_some_iff.mp hs
      exact inv_closeHeld hw hx fun _ _ => by simp

theorem inv_reachable (h : Reachable w) : Inv w :=
  h.invariant inv_init fun _ _ _ _ hi hs => inv_step hi hs

/-! ## What runs keep -/

/-- Open descriptors have one holder each, and every connection is closed once. -/
structure Closes (w : World H) : Prop where
  /-- An open descriptor is held by one handle. -/
  held : ∀ fd c, w.os.table fd = some c → ∃! h, w.holds h fd
  /-- A non-negative value of a handle is an open descriptor. -/
  live : ∀ h x, w.handles h = some x → 0 ≤ x.fd → ∃ c, w.os.table x.fd = some c
  /-- `close` was called on open descriptors only. -/
  unfaulted : w.os.faulted = false
  /-- A connection is open under one number, or it was closed once. -/
  once : ∀ c, c < w.os.next →
    w.os.closed.count c = 1 ∨ w.os.closed.count c = 0 ∧ ∃ fd, w.os.table fd = some c
  /-- Without handles nothing is open. -/
  last : (∀ h, w.handles h = none) → ∀ fd, w.os.table fd = none

/-- **A descriptor is closed once, by its last holder.** -/
theorem sockets_closed_once (w : World H) (h : Reachable w) : Closes w := by
  have hw := inv_reachable h
  refine ⟨fun fd c hc => ?_, fun h x hx hpos => hw.live h x.fd ⟨hpos, hx⟩, hw.sound.unfaulted,
    fun c hc => hw.sound.settled hc, fun hnone fd => ?_⟩
  · obtain ⟨h, hh⟩ := hw.held fd c hc
    exact ⟨h, hh, fun o ho => hw.apart o h fd ho hh⟩
  · cases hfd : w.os.table fd with
    | none => rfl
    | some c =>
        obtain ⟨h, _, hh⟩ := hw.held fd c hfd
        rw [hnone h] at hh
        exact absurd hh (by simp)

/-- The number 3 is returned again when the connection it stood for is closed; the handle that
had it before the move does not close it a second time. -/
theorem sockets_closed_once_recycled :
    let w := (Transition.exec step ({} : World (Fin 2))
      [.ctor 0 3, .moveCtor 1 0, .reset 1 (-1), .createSocket 1 3, .moveAssign 1 1, .dtor 0,
        .assign 1 4, .dtor 1]).get (by decide)
    (∀ h, w.handles h = none) ∧ w.os.closed = [0, 1, 2] ∧ Closes w :=
  ⟨by decide, by decide, sockets_closed_once _ (Transition.exec_reach _ (Option.some_get _).symm)⟩

end QuickStructs.SocketRAII
