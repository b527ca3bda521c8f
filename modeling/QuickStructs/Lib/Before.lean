import Mathlib.Data.Fintype.Defs
import Mathlib.Logic.Function.Basic
import Mathlib.Order.Lattice

/-!
# What happens before what

Threads make accesses to cells of plain memory, and each counts its own. What a thread knows is,
of every thread, how many of its accesses happen before what the thread does next. Two accesses to
one cell, one of them a write, race if the first does not happen before the second.

Threads learn of each other through atomic locations. An operation with release order leaves what
its thread knows at the location, and one with acquire order takes what is there. What reads and
writes in one step adds to what the operations before it have left; a plain store does not.
-/

namespace Lib

/-- `std::memory_order` -/
inductive MemoryOrder where
  | relaxed
  | acquire
  | release
  | acq_rel
  | seq_cst
  deriving DecidableEq, Repr

def MemoryOrder.acquires : MemoryOrder → Bool
  | .acquire | .acq_rel | .seq_cst => true
  | _ => false

def MemoryOrder.releases : MemoryOrder → Bool
  | .release | .acq_rel | .seq_cst => true
  | _ => false

/-- Threads `T`, atomic locations `L` and cells `C`. -/
structure Before (T L C : Type) where
  knows : T → T → Nat := fun _ _ => 0
  /-- What an operation with acquire order finds at a location. -/
  passes : L → T → Nat := fun _ _ => 0
  /-- The number of the last access of each thread that reads a cell, from 1 on. -/
  reads : C → T → Nat := fun _ _ => 0
  writes : C → T → Nat := fun _ _ => 0
  raced : Bool := false

namespace Before

variable {T L C : Type}

/-- The thread knows all accesses to the cell. -/
def Knows (s : Before T L C) (t : T) (c : C) : Prop :=
  s.reads c ≤ s.knows t ∧ s.writes c ≤ s.knows t

/-- Each read of the cell is known to one of the threads of `S`, or is passed on by the location. -/
def Covered (s : Before T L C) (S : T → Prop) (l : L) (c : C) : Prop :=
  ∀ u, (∃ t, S t ∧ s.reads c u ≤ s.knows t u) ∨ s.reads c u ≤ s.passes l u

/-- The same accesses have been made, and nothing known is forgotten. -/
structure Grows (s s' : Before T L C) : Prop where
  reads : s'.reads = s.reads
  writes : s'.writes = s.writes
  raced : s'.raced = s.raced
  knows : ∀ t, s.knows t ≤ s'.knows t
  passes : ∀ l, s.passes l ≤ s'.passes l

variable {s s' : Before T L C} {S S' : T → Prop} {t u : T} {l : L} {c d : C}

theorem grows_refl (s : Before T L C) : s.Grows s :=
  ⟨rfl, rfl, rfl, fun _ => le_rfl, fun _ => le_rfl⟩

theorem Grows.trans {s₁ : Before T L C} (h : s.Grows s₁) (h₁ : s₁.Grows s') : s.Grows s' where
  reads := h₁.reads.trans h.reads
  writes := h₁.writes.trans h.writes
  raced := h₁.raced.trans h.raced
  knows := fun t => le_trans (h.knows t) (h₁.knows t)
  passes := fun l => le_trans (h.passes l) (h₁.passes l)

/-- A thread that answers for reads may leave if another one, or the location, has what it knew. -/
theorem Covered.carry (h : s.Covered S l c) (hreads : s'.reads c = s.reads c)
    (hpasses : s.passes l ≤ s'.passes l)
    (hS : ∀ t, S t → (∃ t', S' t' ∧ s.knows t ≤ s'.knows t') ∨ s.knows t ≤ s'.passes l) :
    s'.Covered S' l c := by
  intro u
  rw [hreads]
  rcases h u with ⟨t, ht, hle⟩ | hle
  · rcases hS t ht with ⟨t', ht', hknows⟩ | hknows
    · exact .inl ⟨t', ht', le_trans hle (hknows u)⟩
    · exact .inr (le_trans hle (hknows u))
  · exact .inr (le_trans hle (hpasses u))

/-- Who knows what all these know, and what the location passes on, knows all the reads. -/
theorem Covered.known {k : T → Nat} (h : s.Covered S l c) (hS : ∀ t, S t → s.knows t ≤ k)
    (hpasses : s.passes l ≤ k) : s.reads c ≤ k := by
  intro u
  rcases h u with ⟨t, ht, hle⟩ | hle
  · exact le_trans hle (hS t ht u)
  · exact le_trans hle (hpasses u)

/-! ## Accesses -/

section Cells

variable [DecidableEq T]

/-- What the thread knows after one more access of its own. -/
def tick (k : T → Nat) (t : T) : T → Nat := Function.update k t (k t + 1)

theorem le_tick (k : T → Nat) (t : T) : k ≤ tick k t := by
  intro u
  by_cases hu : u = t
  · rw [hu, tick, Function.update_self]
    exact Nat.le_succ _
  · rw [tick, Function.update_of_ne hu]

theorem le_update {k : T → T → Nat} {x : T → Nat} (h : k t ≤ x) (u : T) :
    k u ≤ Function.update k t x u := by
  by_cases hu : u = t
  · rw [hu, Function.update_self]
    exact h
  · rw [Function.update_of_ne hu]

/-- The thread knows its own access, and what it knew before. -/
theorem update_le_tick {k x : T → Nat} (h : x ≤ k) : Function.update x t (k t + 1) ≤ tick k t := by
  intro u
  by_cases hu : u = t
  · rw [hu, Function.update_self, tick, Function.update_self]
  · rw [Function.update_of_ne hu, tick, Function.update_of_ne hu]
    exact h u

variable [DecidableEq C] [Fintype T]

/-- A read races with a write that the thread does not know. -/
def read (s : Before T L C) (t : T) (c : C) : Before T L C :=
  { s with
    knows := Function.update s.knows t (tick (s.knows t) t)
    reads := Function.update s.reads c (Function.update (s.reads c) t (s.knows t t + 1))
    raced := s.raced || !decide (∀ u, s.writes c u ≤ s.knows t u) }

/-- A write races with any access that the thread does not know. -/
def write (s : Before T L C) (t : T) (c : C) : Before T L C :=
  { s with
    knows := Function.update s.knows t (tick (s.knows t) t)
    writes := Function.update s.writes c (Function.update (s.writes c) t (s.knows t t + 1))
    raced := s.raced || !decide (∀ u, s.reads c u ≤ s.knows t u ∧ s.writes c u ≤ s.knows t u) }

theorem knows_read (s : Before T L C) (t : T) (c : C) (u : T) :
    s.knows u ≤ (s.read t c).knows u := le_update (le_tick _ t) u

theorem knows_write (s : Before T L C) (t : T) (c : C) (u : T) :
    s.knows u ≤ (s.write t c).knows u := le_update (le_tick _ t) u

theorem knows_read_self (s : Before T L C) (t : T) (c : C) :
    (s.read t c).knows t = tick (s.knows t) t := Function.update_self ..

theorem knows_write_self (s : Before T L C) (t : T) (c : C) :
    (s.write t c).knows t = tick (s.knows t) t := Function.update_self ..

theorem reads_read (s : Before T L C) (t : T) (c d : C) : (s.read t c).reads d =
    if d = c then Function.update (s.reads c) t (s.knows t t + 1) else s.reads d :=
  Function.update_apply ..

theorem writes_write (s : Before T L C) (t : T) (c d : C) : (s.write t c).writes d =
    if d = c then Function.update (s.writes c) t (s.knows t t + 1) else s.writes d :=
  Function.update_apply ..

theorem read_raced (hraced : s.raced = false) (hknown : s.writes c ≤ s.knows t) :
    (s.read t c).raced = false := by
  unfold read
  simp only [hraced, Bool.false_or, Bool.not_eq_false', decide_eq_true_eq]
  exact hknown

theorem write_raced (hraced : s.raced = false) (hknown : s.Knows t c) :
    (s.write t c).raced = false := by
  unfold write
  simp only [hraced, Bool.false_or, Bool.not_eq_false', decide_eq_true_eq]
  intro u
  exact ⟨hknown.1 u, hknown.2 u⟩

/-- Nobody but the thread itself knows of the access yet. -/
theorem knows_of_write (h : s.Knows u d) (hu : d = c → u = t) : (s.write t c).Knows u d := by
  refine ⟨le_trans h.1 (knows_write s t c u), ?_⟩
  rw [writes_write]
  by_cases hd : d = c
  · obtain rfl := hu hd
    subst hd
    rw [if_pos rfl, knows_write_self]
    exact update_le_tick h.2
  · rw [if_neg hd]
    exact le_trans h.2 (knows_write s t c u)

theorem knows_of_read (h : s.Knows u d) (hu : d = c → u = t) : (s.read t c).Knows u d := by
  refine ⟨?_, le_trans h.2 (knows_read s t c u)⟩
  rw [reads_read]
  by_cases hd : d = c
  · obtain rfl := hu hd
    subst hd
    rw [if_pos rfl, knows_read_self]
    exact update_le_tick h.1
  · rw [if_neg hd]
    exact le_trans h.1 (knows_read s t c u)

/-- **A read by one of those who answer for the reads.** -/
theorem covered_of_read (h : s.Covered S l d) (ht : d = c → S t) : (s.read t c).Covered S l d := by
  intro u
  rw [reads_read]
  by_cases hd : d = c ∧ u = t
  · obtain ⟨rfl, rfl⟩ := hd
    refine .inl ⟨u, ht rfl, ?_⟩
    rw [if_pos rfl, Function.update_self, knows_read_self, tick, Function.update_self]
  · have hsame : (if d = c then Function.update (s.reads c) t (s.knows t t + 1) else s.reads d) u
        = s.reads d u := by
      by_cases hc : d = c
      · rw [if_pos hc, Function.update_of_ne fun hu => hd ⟨hc, hu⟩, hc]
      · rw [if_neg hc]
    rw [hsame]
    rcases h u with ⟨t', ht', hle⟩ | hle
    · exact .inl ⟨t', ht', le_trans hle (knows_read s t c t' u)⟩
    · exact .inr hle

end Cells

/-! ## Locations -/

section Stores

variable [DecidableEq L]

def store (s : Before T L C) (o : MemoryOrder) (t : T) (l : L) : Before T L C :=
  { s with passes := Function.update s.passes l (if o.releases then s.knows t else fun _ => 0) }

theorem passes_store (s : Before T L C) {o : MemoryOrder} (ho : o.releases = true) (t : T) (l : L) :
    (s.store o t l).passes l = s.knows t := by
  show Function.update s.passes l _ l = s.knows t
  rw [Function.update_self, if_pos ho]

end Stores

section Locations

variable [DecidableEq T]

/-- Thread `u` goes on where thread `t` is, by other means. -/
def hand (s : Before T L C) (t u : T) : Before T L C :=
  { s with knows := Function.update s.knows u (s.knows u ⊔ s.knows t) }

theorem grows_hand (s : Before T L C) (t u : T) : s.Grows (s.hand t u) :=
  ⟨rfl, rfl, rfl, fun v => le_update le_sup_left v, fun _ => le_rfl⟩

theorem knows_le_hand (s : Before T L C) (t u : T) : s.knows t ≤ (s.hand t u).knows u := by
  show s.knows t ≤ Function.update s.knows u _ u
  rw [Function.update_self]
  exact le_sup_right

variable [DecidableEq L]

/-- An operation that reads and writes a location in one step. -/
def exchange (s : Before T L C) (o : MemoryOrder) (t : T) (l : L) : Before T L C :=
  { s with
    knows := if o.acquires then Function.update s.knows t (s.knows t ⊔ s.passes l) else s.knows
    passes := if o.releases then Function.update s.passes l (s.passes l ⊔ s.knows t) else s.passes }

theorem grows_exchange (s : Before T L C) (o : MemoryOrder) (t : T) (l : L) :
    s.Grows (s.exchange o t l) := by
  refine ⟨rfl, rfl, rfl, ?_, ?_⟩
  · intro u
    unfold exchange
    cases o.acquires with
    | false => exact le_rfl
    | true => exact le_update le_sup_left u
  · intro k
    unfold exchange
    cases o.releases with
    | false => exact le_rfl
    | true =>
        show s.passes k ≤ Function.update s.passes l _ k
        by_cases hk : k = l
        · rw [hk, Function.update_self]
          exact le_sup_left
        · rw [Function.update_of_ne hk]

/-- **Release**: what the thread knows stays at the location. -/
theorem knows_le_exchange (s : Before T L C) {o : MemoryOrder} (ho : o.releases = true) (t : T)
    (l : L) : s.knows t ≤ (s.exchange o t l).passes l := by
  have hpasses : (s.exchange o t l).passes
      = Function.update s.passes l (s.passes l ⊔ s.knows t) := if_pos ho
  rw [hpasses, Function.update_self]
  exact le_sup_right

/-- **Acquire**: the thread learns what was at the location. -/
theorem passes_le_exchange (s : Before T L C) {o : MemoryOrder} (ho : o.acquires = true) (t : T)
    (l : L) : s.passes l ≤ (s.exchange o t l).knows t := by
  have hknows : (s.exchange o t l).knows
      = Function.update s.knows t (s.knows t ⊔ s.passes l) := if_pos ho
  rw [hknows, Function.update_self]
  exact le_sup_right

end Locations

end Before

end Lib
