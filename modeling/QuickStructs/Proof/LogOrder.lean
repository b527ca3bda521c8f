import QuickStructs.Proof.LogLines

/-!
# What comes out of the loggers

Of the characters on `std::cout` those of one logger are whole lines, in the order in which its
mutex was taken, but for the end of the line that is being written. A thread's calls take their
mutexes in the order in which it makes them.
-/

namespace QuickStructs.Logger

open Lib

variable {τ κ : Type} {s s' : State τ κ}

section Parts

variable [DecidableEq κ]

/-- The calls of a logger, in the order in which they took the mutex. -/
def State.takenBy (s : State τ κ) (tag : κ) : List Call :=
  (s.taken.filter fun p => p.2.1 = tag).map fun p => p.2.2

/-- Their lines. -/
def State.lines (s : State τ κ) (tag : κ) : List Char :=
  (s.takenBy tag).flatMap (Call.oss (s.mName tag))

/-- What came out through a logger. -/
def State.through (s : State τ κ) (tag : κ) : List Char :=
  (s.cout.filter fun p => p.1 = tag).map Prod.snd

end Parts

/-- What is left of a line. -/
def Stage.rest : Stage κ → List Char
  | .writing _ rest => rest
  | _ => []

/-- A call that waits for the mutex. -/
def Stage.waits : Stage κ → List (κ × Call)
  | .built tag call _ => [(tag, call)]
  | _ => []

/-- What is left of the line that a logger is writing. -/
def State.rest (s : State τ κ) (tag : κ) : List Char :=
  ((s.logMutex tag).map fun t => (s.stage t).rest).getD []

/-- A step of a thread that does not have the mutex leaves the line as it is. -/
theorem rest_other {t : τ} {tag : κ} (hm : s'.logMutex tag = s.logMutex tag)
    (hs : ∀ u, u ≠ t → s'.stage u = s.stage u) (ht : s.logMutex tag ≠ some t) :
    s'.rest tag = s.rest tag := by
  unfold State.rest
  rw [hm]
  cases hu : s.logMutex tag with
  | none => rfl
  | some u =>
      have hne : u ≠ t := fun he => ht (he ▸ hu)
      rw [Option.map_some, Option.map_some, hs u hne]

/-- The calls of a thread. -/
def ofThread [DecidableEq τ] (t : τ) (calls : List (τ × κ × Call)) : List (κ × Call) :=
  (calls.filter fun p => p.1 = t).map Prod.snd

section Threads

variable [DecidableEq τ]

theorem goto_stage_self (t : τ) (p : Stage κ) : (s.goto t p).stage t = p :=
  Function.update_self ..

theorem goto_stage_ne {t u : τ} (h : u ≠ t) (p : Stage κ) :
    (s.goto t p).stage u = s.stage u := Function.update_of_ne h ..

theorem ofThread_concat_self (t : τ) (calls : List (τ × κ × Call)) (p : κ × Call) :
    ofThread t (calls ++ [(t, p)]) = ofThread t calls ++ [p] := by
  simp [ofThread]

theorem ofThread_concat_ne {t u : τ} (h : u ≠ t) (calls : List (τ × κ × Call)) (p : κ × Call) :
    ofThread u (calls ++ [(t, p)]) = ofThread u calls := by
  simp [ofThread, h.symm]

end Threads

/-! ## The name of a logger -/

section Names

variable [DecidableEq κ] {tag tag' : κ}

/-- **The first name is kept.** -/
theorem getInstance_kept (name : List Char) (h : s.instances tag' ≠ none) :
    (s.getInstance tag name).instances tag' = s.instances tag' := by
  unfold State.getInstance
  by_cases heq : tag' = tag
  · subst heq
    obtain ⟨n, hn⟩ := Option.ne_none_iff_exists'.mp h
    simp [hn]
  · exact Function.update_of_ne heq ..

theorem getInstance_ne_none (name : List Char) :
    (s.getInstance tag name).instances tag ≠ none := by
  simp [State.getInstance]

/-- There is no instance that was not there before but the one that was asked for. -/
theorem getInstance_none {name : List Char} (h : (s.getInstance tag name).instances tag' = none) :
    s.instances tag' = none := by
  by_contra hne
  rw [getInstance_kept name hne] at h
  exact hne h

theorem mName_kept (name : List Char) (h : s.instances tag' ≠ none) :
    (s.getInstance tag name).mName tag' = s.mName tag' := by
  rw [State.mName, getInstance_kept name h, State.mName]

end Names

variable [DecidableEq τ] [DecidableEq κ]

/-! ## Steps, case by case -/

/-- The steps of a state, each with what is known when it is made. -/
inductive LogStep (s : State τ κ) : State τ κ → Prop where
  | getInstance (tag : κ) (name : List Char) : LogStep s (s.getInstance tag name)
  | log (t : τ) (tag : κ) (name : List Char) (call : Call) (ht : s.stage t = .idle) :
      LogStep s ((s.getInstance tag name).build t tag call)
  | lock (t : τ) (tag : κ) (call : Call) (oss : List Char) (ht : s.stage t = .built tag call oss)
      (hfree : s.logMutex tag = none) : LogStep s (s.take t tag call oss)
  | put (t : τ) (tag : κ) (c : Char) (rest : List Char)
      (ht : s.stage t = .writing tag (c :: rest)) :
      LogStep s (s.emit t tag c rest)
  | unlock (t : τ) (tag : κ) (ht : s.stage t = .writing tag []) : LogStep s (s.give t tag)

theorem step_cases {a : Action τ κ} (h : step s a = some s') : LogStep s s' := by
  cases a with
  | getInstance tag name =>
      injection h with h
      rw [← h]
      exact .getInstance tag name
  | log t tag name call =>
      rw [step] at h
      split at h
      · rename_i ht
        injection h with h
        rw [← h]
        exact .log t tag name call ht
      · exact absurd h (by simp)
  | lock t =>
      rw [step] at h
      split at h
      · rename_i tag call oss ht
        obtain ⟨hfree, rfl⟩ := Transition.of_guard h
        exact .lock t tag call oss ht hfree
      · exact absurd h (by simp)
  | put t =>
      rw [step] at h
      split at h
      · rename_i tag c rest ht
        injection h with h
        rw [← h]
        exact .put t tag c rest ht
      · exact absurd h (by simp)
  | unlock t =>
      rw [step] at h
      split at h
      · rename_i tag ht
        injection h with h
        rw [← h]
        exact .unlock t tag ht
      · exact absurd h (by simp)

/-! ## The invariant -/

structure LogInv (s : State τ κ) : Prop where
  /-- The one that writes through a logger has its mutex. -/
  holds : ∀ t tag, s.logMutex tag = some t ↔ ∃ rest, s.stage t = .writing tag rest
  /-- A line that is built bears the name of its logger. -/
  built : ∀ t tag call oss, s.stage t = .built tag call oss →
    s.instances tag ≠ none ∧ oss = call.oss (s.mName tag)
  named : ∀ tag, s.instances tag = none → s.takenBy tag = []
  lines : ∀ tag, s.lines tag = s.through tag ++ s.rest tag
  order : ∀ t, ofThread t s.called = ofThread t s.taken ++ (s.stage t).waits

theorem log_init : LogInv ({} : State τ κ) where
  holds := fun t tag => iff_of_false (by simp) (by simp)
  built := by simp
  named := fun _ _ => rfl
  lines := fun _ => rfl
  order := fun _ => rfl

variable {t : τ} {tag tag' : κ}

/-- Who is not writing has no mutex. -/
theorem LogInv.not_holder (h : LogInv s) (ht : ∀ rest, s.stage t ≠ .writing tag rest) :
    s.logMutex tag ≠ some t := by
  intro hm
  obtain ⟨rest, hw⟩ := (h.holds t tag).mp hm
  exact ht rest hw

theorem LogInv.rest_writing (h : LogInv s) {rest : List Char} (ht : s.stage t = .writing tag rest) :
    s.rest tag = rest := by
  rw [State.rest, (h.holds t tag).mpr ⟨rest, ht⟩, Option.map_some, ht]
  rfl

/-! ## Step by step -/

theorem LogInv.getInstance (h : LogInv s) (tag : κ) (name : List Char) :
    LogInv (s.getInstance tag name) where
  holds := h.holds
  built := by
    intro t tag' call oss ht
    obtain ⟨hthere, hoss⟩ := h.built t tag' call oss ht
    rw [getInstance_kept name hthere, mName_kept name hthere]
    exact ⟨hthere, hoss⟩
  named := fun tag' hnone => h.named tag' (getInstance_none hnone)
  lines := by
    intro tag'
    have hsame : (s.getInstance tag name).lines tag' = s.lines tag' := by
      by_cases hthere : s.instances tag' = none
      · have hempty := h.named tag' hthere
        have hempty' : (s.getInstance tag name).takenBy tag' = [] := hempty
        rw [State.lines, State.lines, hempty, hempty']
        rfl
      · rw [State.lines, mName_kept name hthere]
        rfl
    rw [hsame]
    exact h.lines tag'
  order := h.order

theorem log_build (h : LogInv s) (hi : s.instances tag ≠ none) (call : Call)
    (ht : s.stage t = .idle) : LogInv (s.build t tag call) where
  holds := by
    intro u tag'
    show s.logMutex tag' = some u ↔ ∃ rest, (s.goto t _).stage u = _
    by_cases hu : u = t
    · subst hu
      rw [goto_stage_self]
      exact iff_of_false (h.not_holder (by simp [ht])) (by simp)
    · rw [goto_stage_ne hu]
      exact h.holds u tag'
  built := by
    intro u tag' call' oss hu
    change (s.goto t _).stage u = _ at hu
    by_cases hut : u = t
    · subst hut
      rw [goto_stage_self] at hu
      injection hu with htag hcall hoss
      subst htag hcall hoss
      exact ⟨hi, rfl⟩
    · rw [goto_stage_ne hut] at hu
      exact h.built u tag' call' oss hu
  named := h.named
  lines := by
    intro tag'
    have hrest : (s.build t tag call).rest tag' = s.rest tag' :=
      rest_other rfl (fun u hu => goto_stage_ne hu _) (h.not_holder (by simp [ht]))
    rw [hrest]
    exact h.lines tag'
  order := by
    intro u
    have hu := h.order u
    show ofThread u (s.called ++ _) = ofThread u s.taken ++ ((s.goto t _).stage u).waits
    by_cases hut : u = t
    · subst hut
      rw [ofThread_concat_self, goto_stage_self, hu, ht]
      exact congrArg (· ++ _) (List.append_nil _)
    · rw [ofThread_concat_ne hut, goto_stage_ne hut]
      exact hu

theorem take_takenBy_self (s : State τ κ) (t : τ) (call : Call) (oss : List Char) :
    (s.take t tag call oss).takenBy tag = s.takenBy tag ++ [call] := by
  simp [State.takenBy, State.take]

theorem take_takenBy_ne (h : tag' ≠ tag) (s : State τ κ) (t : τ) (call : Call) (oss : List Char) :
    (s.take t tag call oss).takenBy tag' = s.takenBy tag' := by
  simp [State.takenBy, State.take, h.symm]

theorem emit_through_self (s : State τ κ) (t : τ) (c : Char) (rest : List Char) :
    (s.emit t tag c rest).through tag = s.through tag ++ [c] := by
  simp [State.through, State.emit]

theorem emit_through_ne (h : tag' ≠ tag) (s : State τ κ) (t : τ) (c : Char) (rest : List Char) :
    (s.emit t tag c rest).through tag' = s.through tag' := by
  simp [State.through, State.emit, h.symm]

/-- The mutex of `tag` changes hands to or from `t`, which is the only thread that moves. -/
theorem LogInv.holds_update (h : LogInv s) {holder : Option τ} {p : Stage κ}
    (hself : ∀ u, holder = some u ↔ u = t ∧ ∃ rest, p = .writing tag rest)
    (hothers : ∀ u, u ≠ t → s.logMutex tag ≠ some u)
    (hnot : ∀ tag', tag' ≠ tag → s.logMutex tag' ≠ some t ∧ ∀ rest, p ≠ .writing tag' rest)
    (u : τ) (tag' : κ) :
    Function.update s.logMutex tag holder tag' = some u ↔
      ∃ rest, (s.goto t p).stage u = .writing tag' rest := by
  by_cases hu : u = t
  · subst hu
    rw [goto_stage_self]
    by_cases htag : tag' = tag
    · subst htag
      rw [Function.update_self, hself]
      exact and_iff_right rfl
    · obtain ⟨hmutex, hstage⟩ := hnot tag' htag
      rw [Function.update_of_ne htag]
      exact iff_of_false hmutex fun ⟨rest, hp⟩ => hstage rest hp
  · rw [goto_stage_ne hu, ← h.holds]
    by_cases htag : tag' = tag
    · subst htag
      rw [Function.update_self, hself]
      exact iff_of_false (fun hand => hu hand.1) (hothers u hu)
    · rw [Function.update_of_ne htag]

/-- A thread that writes, or has written, has nothing built. -/
theorem LogInv.built_goto (h : LogInv s) {p : Stage κ} (hp : p.waits = []) (u : τ) (tag' : κ)
    (call : Call) (oss : List Char) (hu : (s.goto t p).stage u = .built tag' call oss) :
    s.instances tag' ≠ none ∧ oss = call.oss (s.mName tag') := by
  by_cases hut : u = t
  · subst hut
    rw [goto_stage_self] at hu
    rw [hu] at hp
    exact absurd hp (List.cons_ne_nil _ _)
  · rw [goto_stage_ne hut] at hu
    exact h.built u tag' call oss hu

theorem LogInv.order_goto (h : LogInv s) {p : Stage κ} (hp : p.waits = [])
    (hw : (s.stage t).waits = []) (u : τ) :
    ofThread u s.called = ofThread u s.taken ++ ((s.goto t p).stage u).waits := by
  have hu := h.order u
  by_cases hut : u = t
  · subst hut
    rw [goto_stage_self, hp, ← hw]
    exact hu
  · rw [goto_stage_ne hut]
    exact hu

theorem log_take (h : LogInv s) {call : Call} {oss : List Char}
    (ht : s.stage t = .built tag call oss) (hfree : s.logMutex tag = none) :
    LogInv (s.take t tag call oss) where
  holds := by
    refine h.holds_update (fun u => ?_) (fun u _ => by simp [hfree]) fun tag' htag => ⟨?_, ?_⟩
    · rw [Option.some.injEq]
      exact ⟨fun hu => ⟨hu.symm, oss, rfl⟩, fun hu => hu.1.symm⟩
    · exact h.not_holder (by simp [ht])
    · intro rest hw
      injection hw with hw
      exact htag hw.symm
  built := h.built_goto rfl
  named := by
    intro tag' hnone
    have hne : tag' ≠ tag := by
      rintro rfl
      exact (h.built t tag' call oss ht).1 hnone
    rw [take_takenBy_ne hne]
    exact h.named tag' hnone
  lines := by
    intro tag'
    have hlines := h.lines tag'
    by_cases htag : tag' = tag
    · subst htag
      have hoss := (h.built t tag' call oss ht).2
      have hrest : s.rest tag' = [] := by
        rw [State.rest, hfree]
        rfl
      have hrest' : (s.take t tag' call oss).rest tag' = oss := by
        simp [State.rest, State.take, goto_stage_self, Stage.rest]
      rw [hrest, List.append_nil] at hlines
      rw [hrest', State.lines, take_takenBy_self, List.flatMap_append, List.flatMap_singleton, hoss]
      exact congrArg (· ++ _) hlines
    · have hrest : (s.take t tag call oss).rest tag' = s.rest tag' :=
        rest_other (Function.update_of_ne htag ..) (fun u hu => goto_stage_ne hu _)
          (h.not_holder (by simp [ht]))
      rw [hrest, State.lines, take_takenBy_ne htag]
      exact hlines
  order := by
    intro u
    have hu := h.order u
    show ofThread u s.called = ofThread u (s.taken ++ _) ++ ((s.goto t _).stage u).waits
    by_cases hut : u = t
    · subst hut
      rw [ofThread_concat_self, goto_stage_self, hu, ht]
      exact (List.append_nil _).symm
    · rw [ofThread_concat_ne hut, goto_stage_ne hut]
      exact hu

theorem log_emit (h : LogInv s) {c : Char} {rest : List Char}
    (ht : s.stage t = .writing tag (c :: rest)) : LogInv (s.emit t tag c rest) where
  holds := by
    have hmine : s.logMutex tag = some t := (h.holds t tag).mpr ⟨_, ht⟩
    have hsame : Function.update s.logMutex tag (some t) = s.logMutex := by
      rw [← hmine]
      exact Function.update_eq_self ..
    show ∀ u tag', s.logMutex tag' = some u ↔ _
    rw [← hsame]
    refine h.holds_update (fun u => ?_) (fun u hu => ?_) fun tag' htag => ⟨?_, ?_⟩
    · rw [Option.some.injEq]
      exact ⟨fun hu => ⟨hu.symm, rest, rfl⟩, fun hu => hu.1.symm⟩
    · rw [hmine]
      exact fun he => hu (Option.some.inj he).symm
    · exact h.not_holder (by simp [ht, htag.symm])
    · intro rest' hw
      injection hw with hw
      exact htag hw.symm
  built := h.built_goto rfl
  named := h.named
  lines := by
    intro tag'
    have hlines := h.lines tag'
    by_cases htag : tag' = tag
    · subst htag
      have hmine : s.logMutex tag' = some t := (h.holds t tag').mpr ⟨_, ht⟩
      have hrest' : (s.emit t tag' c rest).rest tag' = rest := by
        simp [State.rest, State.emit, State.goto, hmine, Stage.rest]
      rw [h.rest_writing ht] at hlines
      rw [hrest', emit_through_self, List.append_assoc]
      exact hlines
    · have hrest : (s.emit t tag c rest).rest tag' = s.rest tag' :=
        rest_other rfl (fun u hu => goto_stage_ne hu _)
          (h.not_holder (by simp [ht, Ne.symm htag]))
      rw [hrest, emit_through_ne htag]
      exact hlines
  order := h.order_goto rfl (by rw [ht]; rfl)

theorem log_give (h : LogInv s) (ht : s.stage t = .writing tag []) : LogInv (s.give t tag) where
  holds := by
    have hmine : s.logMutex tag = some t := (h.holds t tag).mpr ⟨_, ht⟩
    refine h.holds_update (fun u => by simp) (fun u hu => ?_) fun tag' htag => ⟨?_, by simp⟩
    · rw [hmine]
      exact fun he => hu (Option.some.inj he).symm
    · exact h.not_holder (by simp [ht, htag.symm])
  built := h.built_goto rfl
  named := h.named
  lines := by
    intro tag'
    have hlines := h.lines tag'
    by_cases htag : tag' = tag
    · subst htag
      have hrest' : (s.give t tag').rest tag' = [] := by
        simp [State.rest, State.give]
      rw [h.rest_writing ht] at hlines
      rw [hrest']
      exact hlines
    · have hrest : (s.give t tag).rest tag' = s.rest tag' :=
        rest_other (Function.update_of_ne htag ..) (fun u hu => goto_stage_ne hu _)
          (h.not_holder (by simp [ht, Ne.symm htag]))
      rw [hrest]
      exact hlines
  order := h.order_goto rfl (by rw [ht]; rfl)

/-- **Every step keeps the invariant.** -/
theorem log_step {a : Action τ κ} (h : LogInv s) (hs : step s a = some s') : LogInv s' := by
  cases step_cases hs with
  | getInstance tag name => exact h.getInstance tag name
  | log t tag name call ht =>
      exact log_build (h.getInstance tag name) (getInstance_ne_none name) call ht
  | lock t tag call oss ht hfree => exact log_take h ht hfree
  | put t tag c rest ht => exact log_emit h ht
  | unlock t tag ht => exact log_give h ht

theorem log_reachable (h : Reachable s) : LogInv s :=
  h.invariant log_init fun _ _ _ _ hi hs => log_step hi hs

/--
**The lines of a logger come out whole and in order.**

Whatever the interleaving of any number of threads and loggers: what came out through a logger,
with the end of the line it is writing, is the lines of its calls in the order in which they took
its mutex, each with the name of that logger; with the mutex free there is no such end. A thread's
calls take their mutexes in the order in which it makes them, and only its last one may still wait.
-/
theorem log_lines (s : State τ κ) (h : Reachable s) :
    (∀ tag, s.lines tag = s.through tag ++ s.rest tag)
      ∧ (∀ tag, s.logMutex tag = none → s.rest tag = [])
      ∧ (∀ t, ofThread t s.called = ofThread t s.taken ++ (s.stage t).waits)
      ∧ ∀ t t' tag rest rest', s.stage t = .writing tag rest → s.stage t' = .writing tag rest' →
          t = t' := by
  have hinv := log_reachable h
  refine ⟨hinv.lines, fun tag hfree => ?_, hinv.order, fun t t' tag rest rest' ht ht' => ?_⟩
  · rw [State.rest, hfree]
    rfl
  · have hmine := (hinv.holds t tag).mpr ⟨rest, ht⟩
    rw [(hinv.holds t' tag).mpr ⟨rest', ht'⟩] at hmine
    exact (Option.some.inj hmine).symm

/-- A call at five past one. -/
def fivePastOne (func : List Char) (args : List (List Char)) : Call :=
  { level := .warn, func := func, line := 42, args := args
    time := { tmHour := 13, tmMin := 5, tmSec := 0, ms := 7 } }

/-- Two threads, one of which has begun its line. -/
theorem log_lines_two :
    let run : List (Action Bool Unit) :=
      [.log true () ['a'] (fivePastOne ['f'] []), .log false () ['b'] (fivePastOne ['g'] []),
        .lock false, .put false, .put false]
    let s := (Transition.exec step {} run).get (by decide)
    s.through () = ['\x1b', '['] ∧ s.mName () = ['a'] ∧ s.lines () = s.through () ++ s.rest () :=
  ⟨by decide, by decide, (log_lines _ (Transition.exec_reach _ (Option.some_get _).symm)).1 ()⟩

/--
**A log is read back.**

Whatever the interleaving: if the function names and the arguments of the calls are plain, and the
mutex of a logger is free, then any plain calls that would have written what came out through
it say the same as the calls that were made, one by one and in the order of the mutex.
-/
theorem log_read (s : State τ κ) (h : Reachable s) (tag : κ) (hfree : s.logMutex tag = none)
    (hplain : ∀ c ∈ s.takenBy tag, c.Plain) (calls : List Call) (hcalls : ∀ c ∈ calls, c.Plain)
    (hread : calls.flatMap (Call.oss (s.mName tag)) = s.through tag) :
    calls.map Call.content = (s.takenBy tag).map Call.content := by
  have hinv := log_reachable h
  have hrest : s.rest tag = [] := by
    rw [State.rest, hfree]
    rfl
  have hlines := hinv.lines tag
  rw [hrest, List.append_nil] at hlines
  exact lines_inj hcalls hplain (hread.trans hlines.symm)

set_option maxRecDepth 8000 in
/-- Where one argument ends and the next begins is not to be seen. -/
theorem log_read_one :
    let call := fivePastOne ['f'] [['h'], ['i']]
    let run : List (Action Unit Unit) :=
      .log () () ['L'] call :: .lock ()
        :: List.replicate (call.oss ['L']).length (.put ()) ++ [.unlock ()]
    let s := (Transition.exec step {} run).get (by decide)
    [fivePastOne ['f'] [['h', 'i']]].map Call.content = (s.takenBy ()).map Call.content :=
  log_read _ (Transition.exec_reach _ (Option.some_get _).symm) () (by decide) (by decide) _
    (by decide) (by decide)

/-! ## Torn lines -/

theorem oss_start (mName : List Char) (c : Call) : ∃ rest, c.oss mName = '\x1b' :: '[' :: rest := by
  obtain ⟨level, func, line, args, time⟩ := c
  cases level <;> exact ⟨_, rfl⟩

/-- Two threads that begin their lines at the same time, each through its own logger. -/
theorem log_torn {tag tag' : κ} (hne : tag ≠ tag') :
    ∃ s : State Bool κ, Reachable s ∧ s.cout.map Prod.snd = ['\x1b', '\x1b'] := by
  refine Transition.exists_reach_of_exec [.log true tag [] (fivePastOne [] []),
    .log false tag' [] (fivePastOne [] []), .lock true, .lock false, .put true, .put false] ?_
  simp [Transition.exec, step, State.getInstance, State.build, State.take, State.emit, State.goto,
    State.mName, Call.oss, levelToColor, fivePastOne, hne.symm]

/--
**Lines are torn as soon as there are two loggers.**

What came out on `std::cout` is always whole lines, but for the end of the last one, if and only
if all calls go through one and the same logger.
-/
theorem whole_lines_iff :
    (∀ (τ : Type) [DecidableEq τ] (s : State τ κ), Reachable s →
      ∃ calls : List (List Char × Call),
        s.cout.map Prod.snd <+: calls.flatMap fun p => p.2.oss p.1) ↔ Subsingleton κ := by
  constructor
  · intro hwhole
    refine ⟨fun tag tag' => ?_⟩
    by_contra hne
    obtain ⟨s, hs, hcout⟩ := log_torn hne
    obtain ⟨calls, hprefix⟩ := hwhole Bool s hs
    rw [hcout] at hprefix
    cases calls with
    | nil => exact absurd (List.prefix_nil.mp hprefix) (List.cons_ne_nil _ _)
    | cons p calls =>
        obtain ⟨rest, hstart⟩ := oss_start p.1 p.2
        rw [List.flatMap_cons, hstart, List.cons_append, List.cons_append, List.cons_prefix_cons,
          List.cons_prefix_cons] at hprefix
        exact absurd hprefix.2.1 (by decide)
  · intro hone τ _ s hs
    have hinv := log_reachable hs
    cases hcout : s.cout with
    | nil => exact ⟨[], List.nil_prefix⟩
    | cons p rest =>
        have hthrough : s.through p.1 = s.cout.map Prod.snd := by
          rw [State.through, List.filter_eq_self.mpr]
          exact fun q _ => decide_eq_true (Subsingleton.elim q.1 p.1)
        refine ⟨(s.takenBy p.1).map fun c => (s.mName p.1, c), ?_⟩
        rw [← hcout, ← hthrough, List.flatMap_map]
        exact ⟨s.rest p.1, (hinv.lines p.1).symm⟩

end QuickStructs.Logger
