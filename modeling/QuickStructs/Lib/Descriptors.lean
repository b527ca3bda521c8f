import Mathlib.Data.List.Nodup
import Mathlib.Logic.Function.Basic

/-!
# Descriptors

An operating system gives out descriptors, which are numbers, and takes them back when they
are closed; then the same number may be given out again. So a number does not say which
connection it stands for, and the connections are numbered apart from their descriptors, in
the order in which they were opened. To close a number that is not open is a fault.

Used without faults, every connection is open under one number or was closed once.
-/

namespace Lib

structure Descriptors where
  /-- The connections behind the numbers that are open. -/
  table : Int → Option Nat := fun _ => none
  /-- The number of the next connection. -/
  next : Nat := 0
  closed : List Nat := []
  faulted : Bool := false

namespace Descriptors

variable {d : Descriptors} {fd fd' : Int} {c : Nat}

/-- A connection is opened under the number `fd`. -/
def issue (d : Descriptors) (fd : Int) : Descriptors :=
  { d with table := Function.update d.table fd (some d.next), next := d.next + 1 }

/-- `close(fd)` -/
def close (d : Descriptors) (fd : Int) : Descriptors :=
  match d.table fd with
  | some c => { d with table := Function.update d.table fd none, closed := d.closed ++ [c] }
  | none => { d with faulted := true }

theorem issue_self (d : Descriptors) (fd : Int) : (d.issue fd).table fd = some d.next :=
  Function.update_self ..

theorem issue_of_ne (h : fd' ≠ fd) : (d.issue fd).table fd' = d.table fd' :=
  Function.update_of_ne h ..

theorem close_eq (h : d.table fd = some c) :
    d.close fd = { d with
      table := Function.update d.table fd none, closed := d.closed ++ [c] } := by
  unfold close
  rw [h]

theorem close_self (h : d.table fd = some c) : (d.close fd).table fd = none := by
  rw [close_eq h]
  exact Function.update_self ..

theorem close_of_ne (h : d.table fd = some c) (hne : fd' ≠ fd) :
    (d.close fd).table fd' = d.table fd' := by
  rw [close_eq h]
  exact Function.update_of_ne hne ..

/-- What is done to different numbers may be done in either order. -/
theorem close_issue (h : d.table fd' = some c) (hne : fd' ≠ fd) :
    (d.issue fd).close fd' = (d.close fd').issue fd := by
  have hissue : (d.issue fd).table fd' = some c := (issue_of_ne hne).trans h
  rw [close_eq hissue, close_eq h]
  unfold issue
  simp only [Function.update_comm (Ne.symm hne)]

/-! ## Every connection is accounted for -/

/-- The connections that are not open were closed once, and nothing else was closed. -/
structure Sound (d : Descriptors) : Prop where
  live : ∀ fd c, d.table fd = some c → c < d.next ∧ c ∉ d.closed
  apart : ∀ fd fd' c, d.table fd = some c → d.table fd' = some c → fd = fd'
  cover : ∀ c, c < d.next → c ∈ d.closed ∨ ∃ fd, d.table fd = some c
  past : ∀ c ∈ d.closed, c < d.next
  once : d.closed.Nodup
  unfaulted : d.faulted = false

theorem sound_none : Sound {} where
  live := fun _ _ h => absurd h (by simp)
  apart := fun _ _ _ h => absurd h (by simp)
  cover := fun _ h => absurd h (Nat.not_lt_zero _)
  past := fun _ h => absurd h (by simp)
  once := List.nodup_nil
  unfaulted := rfl

theorem sound_issue (h : Sound d) (hfree : d.table fd = none) : Sound (d.issue fd) := by
  -- what is behind another number is an older connection
  have hold : ∀ fd' c, (d.issue fd).table fd' = some c → fd' ≠ fd → d.table fd' = some c :=
    fun fd' c hc hne => (issue_of_ne hne).symm.trans hc
  have hnew : ∀ c, (d.issue fd).table fd = some c → c = d.next := fun c hc =>
    (Option.some.inj ((issue_self d fd).symm.trans hc)).symm
  refine ⟨fun fd' c hc => ?_, fun fd₁ fd₂ c h₁ h₂ => ?_, fun c hc => ?_, fun c hc => ?_, h.once,
    h.unfaulted⟩
  · by_cases hne : fd' = fd
    · rw [hne] at hc
      rw [hnew c hc]
      exact ⟨Nat.lt_succ_self _, fun hmem => Nat.lt_irrefl _ (h.past _ hmem)⟩
    · obtain ⟨hlt, hmem⟩ := h.live fd' c (hold fd' c hc hne)
      exact ⟨Nat.lt_succ_of_lt hlt, hmem⟩
  · by_cases hne₁ : fd₁ = fd
    · by_cases hne₂ : fd₂ = fd
      · rw [hne₁, hne₂]
      · rw [hne₁] at h₁
        rw [hnew c h₁] at h₂
        exact absurd (h.live fd₂ _ (hold fd₂ _ h₂ hne₂)).1 (Nat.lt_irrefl _)
    · by_cases hne₂ : fd₂ = fd
      · rw [hne₂] at h₂
        rw [hnew c h₂] at h₁
        exact absurd (h.live fd₁ _ (hold fd₁ _ h₁ hne₁)).1 (Nat.lt_irrefl _)
      · exact h.apart fd₁ fd₂ c (hold fd₁ c h₁ hne₁) (hold fd₂ c h₂ hne₂)
  · rcases Nat.lt_succ_iff_lt_or_eq.mp hc with hlt | heq
    · rcases h.cover c hlt with hmem | ⟨fd', hfd⟩
      · exact Or.inl hmem
      · refine Or.inr ⟨fd', (issue_of_ne fun hne => ?_).trans hfd⟩
        rw [hne, hfree] at hfd
        exact absurd hfd (by simp)
    · rw [heq]
      exact Or.inr ⟨fd, issue_self d fd⟩
  · exact Nat.lt_succ_of_lt (h.past c hc)

theorem sound_close (h : Sound d) (hopen : d.table fd = some c) : Sound (d.close fd) := by
  obtain ⟨hlt, hmem⟩ := h.live fd c hopen
  have hclosed : (d.close fd).closed = d.closed ++ [c] := by rw [close_eq hopen]
  have hnext : (d.close fd).next = d.next := by rw [close_eq hopen]
  -- what is still open was open before, and under another number
  have hold : ∀ fd' c', (d.close fd).table fd' = some c' → fd' ≠ fd ∧ d.table fd' = some c' := by
    intro fd' c' hc
    have hne : fd' ≠ fd := by
      intro hfd
      rw [hfd, close_self hopen] at hc
      exact absurd hc (by simp)
    exact ⟨hne, (close_of_ne hopen hne).symm.trans hc⟩
  refine ⟨fun fd' c' hc => ?_, fun fd₁ fd₂ c' h₁ h₂ => ?_, fun c' hc => ?_, fun c' hc => ?_, ?_, ?_⟩
  · obtain ⟨hne, hc'⟩ := hold fd' c' hc
    obtain ⟨hlt', hmem'⟩ := h.live fd' c' hc'
    rw [hclosed, hnext]
    refine ⟨hlt', List.not_mem_append hmem' fun hin => hne ?_⟩
    rw [List.mem_singleton.mp hin] at hc'
    exact h.apart fd' fd c hc' hopen
  · exact h.apart fd₁ fd₂ c' (hold fd₁ c' h₁).2 (hold fd₂ c' h₂).2
  · rw [hnext] at hc
    rw [hclosed]
    rcases h.cover c' hc with hin | ⟨fd', hfd⟩
    · exact Or.inl (List.mem_append_left _ hin)
    · by_cases hne : fd' = fd
      · rw [hne, hopen] at hfd
        exact Or.inl (List.mem_append_right _ (List.mem_singleton.mpr (Option.some.inj hfd).symm))
      · exact Or.inr ⟨fd', (close_of_ne hopen hne).trans hfd⟩
  · rw [hclosed] at hc
    rw [hnext]
    rcases List.mem_append.mp hc with hin | hin
    · exact h.past c' hin
    · rw [List.mem_singleton.mp hin]
      exact hlt
  · rw [hclosed]
    refine List.nodup_append.mpr ⟨h.once, List.nodup_singleton _, fun x hx y hy hxy => ?_⟩
    rw [hxy, List.mem_singleton.mp hy] at hx
    exact hmem hx
  · rw [close_eq hopen]
    exact h.unfaulted

/-- Every connection is open or was closed, and only once. -/
theorem Sound.settled (h : Sound d) (hc : c < d.next) :
    d.closed.count c = 1 ∨ d.closed.count c = 0 ∧ ∃ fd, d.table fd = some c := by
  rcases h.cover c hc with hmem | ⟨fd, hfd⟩
  · exact Or.inl (List.count_eq_one_of_mem h.once hmem)
  · exact Or.inr ⟨List.count_eq_zero_of_not_mem (h.live fd c hfd).2, fd, hfd⟩

end Descriptors

end Lib
