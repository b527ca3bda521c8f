import Mathlib.Data.List.Count
import Mathlib.Logic.Equiv.Basic
import Mathlib.Logic.Relation

/-!
# Custody of objects

Places hold objects, at most one each, together with a label that says how the object
is to be disposed of. An object is taken into custody once; from then on it is carried
from place to place, until it is disposed of or handed out. A book keeps what happened,
and the one thing to be known of it is that every object has a single fate: it is with
one place, or it was disposed of once, under the label it was last expected to have, or
it was handed out once.
-/

namespace Lib.Custody

variable {H P L : Type}

@[ext]
structure Book (H P L : Type) where
  /-- What the places hold, under which label. -/
  slot : H → Option (P × L)
  /-- The label an object is expected to be disposed of with, once in custody. -/
  expected : P → Option L
  disposed : List (P × L)
  released : List P

section Fates

variable [DecidableEq P]

/-- The disposals of an object. -/
def Book.disposedOf (k : Book H P L) (p : P) : List (P × L) := k.disposed.filter fun e => e.1 == p

/-- The fate of an object. -/
inductive Fate (k : Book H P L) (p : P) : Prop where
  | new (hexp : k.expected p = none) (hheld : ∀ h l, k.slot h ≠ some (p, l))
      (hdis : k.disposedOf p = []) (hrel : k.released.count p = 0)
  | held (h : H) (l : L) (hexp : k.expected p = some l) (hslot : k.slot h = some (p, l))
      (hother : ∀ o l', k.slot o = some (p, l') → o = h)
      (hdis : k.disposedOf p = []) (hrel : k.released.count p = 0)
  | disposed (l : L) (hexp : k.expected p = some l) (hheld : ∀ h l', k.slot h ≠ some (p, l'))
      (hdis : k.disposedOf p = [(p, l)]) (hrel : k.released.count p = 0)
  | released (l : L) (hexp : k.expected p = some l) (hheld : ∀ h l', k.slot h ≠ some (p, l'))
      (hdis : k.disposedOf p = []) (hrel : k.released.count p = 1)

/-- Every object has a fate. -/
def Sound (k : Book H P L) : Prop := ∀ p, Fate k p

variable {k k' : Book H P L} {h o : H} {p q : P} {l l' : L}

/-- An object that a step does not concern keeps its fate. -/
theorem Fate.frame (hf : Fate k q) (hslot : ∀ h l, k'.slot h = some (q, l) ↔ k.slot h = some (q, l))
    (hexp : k'.expected q = k.expected q) (hdis : k'.disposedOf q = k.disposedOf q)
    (hrel : k'.released.count q = k.released.count q) : Fate k' q := by
  cases hf with
  | new he hh hd hr =>
      exact .new (hexp.trans he) (fun h l hs => hh h l ((hslot h l).mp hs)) (hdis.trans hd)
        (hrel.trans hr)
  | held h l he hs ho hd hr =>
      exact .held h l (hexp.trans he) ((hslot h l).mpr hs)
        (fun o l' hs => ho o l' ((hslot o l').mp hs))
        (hdis.trans hd) (hrel.trans hr)
  | disposed l he hh hd hr =>
      exact .disposed l (hexp.trans he) (fun h l hs => hh h l ((hslot h l).mp hs)) (hdis.trans hd)
        (hrel.trans hr)
  | released l he hh hd hr =>
      exact .released l (hexp.trans he) (fun h l hs => hh h l ((hslot h l).mp hs)) (hdis.trans hd)
        (hrel.trans hr)

/-- What is held is nowhere else, and has neither been disposed of nor handed out. -/
theorem Sound.held (hs : Sound k) (hp : k.slot h = some (p, l)) :
    k.expected p = some l ∧ (∀ o l', k.slot o = some (p, l') → o = h)
      ∧ k.disposedOf p = [] ∧ k.released.count p = 0 := by
  cases hs p with
  | new _ hh _ _ => exact absurd hp (hh h l)
  | held h' l' he hslot ho hd hr =>
      have hh : h = h' := ho h l hp
      subst hh
      rw [hslot] at hp
      rw [← (Prod.mk.inj (Option.some.inj hp)).2]
      exact ⟨he, ho, hd, hr⟩
  | disposed _ _ hh _ _ => exact absurd hp (hh h l)
  | released _ _ hh _ _ => exact absurd hp (hh h l)

theorem disposedOf_append (e : P × L) :
    ({ k with disposed := k.disposed ++ [e] } : Book H P L).disposedOf q
      = k.disposedOf q ++ if e.1 = q then [e] else [] := by
  unfold Book.disposedOf
  rw [List.filter_append]
  by_cases he : e.1 = q
  · simp [he]
  · simp [he, beq_false_of_ne he]

/-- What is expected once the object of a place has a new label. -/
def Book.relabel (k : Book H P L) (x : Option (P × L)) (f : L → L) : P → Option L :=
  match x with
  | some (p, l) => Function.update k.expected p (some (f l))
  | none => k.expected

/-- To keep the label is to expect the same as before. -/
theorem Sound.relabel_id (hs : Sound k) (h : H) : k.relabel (k.slot h) id = k.expected := by
  cases hp : k.slot h with
  | none => rfl
  | some e =>
      obtain ⟨hexp, _⟩ := hs.held hp
      show Function.update k.expected e.1 (some e.2) = k.expected
      rw [← hexp]
      exact Function.update_eq_self e.1 k.expected

end Fates

section Steps

variable {k k' : Book H P L} {h o : H} {p q : P} {l l' : L}
variable [DecidableEq H]

theorem slot_update_iff {s : H → Option (P × L)} {x : Option (P × L)}
    (hold : ∀ l, s h ≠ some (q, l))
    (hnew : ∀ l, x ≠ some (q, l)) (o : H) (l : L) :
    Function.update s h x o = some (q, l) ↔ s o = some (q, l) := by
  by_cases hoh : o = h
  · rw [hoh, Function.update_self]
    exact iff_of_false (hnew l) (hold l)
  · rw [Function.update_of_ne hoh]

/-- What another place loses does not concern an object. -/
theorem slot_empty_iff (hp : k.slot h = some (p, l)) (hqp : q ≠ p) (o : H) (l' : L) :
    Function.update k.slot h none o = some (q, l') ↔ k.slot o = some (q, l') := by
  refine slot_update_iff (fun l' hq => ?_) (fun _ => by simp) o l'
  rw [hp] at hq
  exact hqp (Prod.mk.inj (Option.some.inj hq)).1.symm

variable [DecidableEq P]

/-- What can happen to a book. -/
inductive Does (k : Book H P L) : Book H P L → Prop where
  | adopt (h : H) (p : P) (l : L) (hempty : k.slot h = none) (hnew : k.expected p = none) :
      Does k { k with
        slot := Function.update k.slot h (some (p, l))
        expected := Function.update k.expected p (some l) }
  | dispose (h : H) (p : P) (l : L) (hp : k.slot h = some (p, l)) :
      Does k { k with
        slot := Function.update k.slot h none, disposed := k.disposed ++ [(p, l)] }
  | release (h : H) (p : P) (l : L) (hp : k.slot h = some (p, l)) :
      Does k { k with slot := Function.update k.slot h none, released := k.released ++ [p] }
  /-- The label may change on the way. -/
  | move (o h : H) (p : P) (l l' : L) (hp : k.slot o = some (p, l)) (hempty : k.slot h = none) :
      Does k { k with
        slot := Function.update (Function.update k.slot o none) h (some (p, l'))
        expected := Function.update k.expected p (some l') }
  | swap (h o : H) :
      Does k { k with slot := k.slot ∘ Equiv.swap h o }

/-- Any number of them. -/
abbrev Runs : Book H P L → Book H P L → Prop := Relation.ReflTransGen Does

/-- **An object taken into custody.** -/
theorem sound_adopt (hs : Sound k) (hempty : k.slot h = none) (hnew : k.expected p = none) :
    Sound { k with
      slot := Function.update k.slot h (some (p, l))
      expected := Function.update k.expected p (some l) } := by
  intro q
  have hold : ∀ q l', k.slot h ≠ some (q, l') := by
    intro q l' hq
    rw [hempty] at hq
    exact absurd hq (by simp)
  by_cases hqp : q = p
  · subst hqp
    cases hs q with
    | new _ hheld hdis hrel =>
        refine .held h l (Function.update_self ..) (Function.update_self ..) (fun o l' ho => ?_)
          hdis hrel
        have ho' : Function.update k.slot h (some (q, l)) o = some (q, l') := ho
        by_cases hoh : o = h
        · exact hoh
        · rw [Function.update_of_ne hoh] at ho'
          exact absurd ho' (hheld o l')
    | held _ _ he _ _ _ _ => rw [hnew] at he; exact absurd he (by simp)
    | disposed _ he _ _ _ => rw [hnew] at he; exact absurd he (by simp)
    | released _ he _ _ _ => rw [hnew] at he; exact absurd he (by simp)
  · refine (hs q).frame (slot_update_iff (hold q) fun l' hl => ?_) (Function.update_of_ne hqp ..)
      rfl rfl
    exact hqp (Prod.mk.inj (Option.some.inj hl)).1.symm

/-- Once its place is emptied, an object is nowhere. -/
theorem slot_empty (hs : Sound k) (hp : k.slot h = some (p, l)) (o : H) (l' : L) :
    Function.update k.slot h none o ≠ some (p, l') := by
  intro ho
  by_cases hoh : o = h
  · rw [hoh, Function.update_self] at ho
    exact absurd ho (by simp)
  · rw [Function.update_of_ne hoh] at ho
    obtain ⟨_, hother, _⟩ := hs.held hp
    exact hoh (hother o l' ho)

theorem sound_dispose (hs : Sound k) (hp : k.slot h = some (p, l)) :
    Sound { k with slot := Function.update k.slot h none, disposed := k.disposed ++ [(p, l)] } := by
  intro q
  have hdis' := disposedOf_append (k := k) (q := q) (p, l)
  by_cases hqp : q = p
  · subst hqp
    obtain ⟨hexp, _, hdis, hrel⟩ := hs.held hp
    rw [hdis, if_pos rfl] at hdis'
    exact .disposed l hexp (slot_empty hs hp) hdis' hrel
  · rw [if_neg fun hpq => hqp hpq.symm, List.append_nil] at hdis'
    exact (hs q).frame (slot_empty_iff hp hqp) rfl hdis' rfl

theorem sound_release (hs : Sound k) (hp : k.slot h = some (p, l)) :
    Sound { k with slot := Function.update k.slot h none, released := k.released ++ [p] } := by
  intro q
  by_cases hqp : q = p
  · subst hqp
    obtain ⟨hexp, _, hdis, hrel⟩ := hs.held hp
    refine .released l hexp (slot_empty hs hp) hdis ?_
    rw [List.count_append, hrel, List.count_singleton_self]
  · refine (hs q).frame (slot_empty_iff hp hqp) rfl rfl ?_
    rw [List.count_append, List.count_singleton, beq_false_of_ne fun hpq => hqp hpq.symm]
    rfl

/-- **An object carried to another place.** -/
theorem sound_move (hs : Sound k) (hp : k.slot o = some (p, l)) (hempty : k.slot h = none) :
    Sound { k with
      slot := Function.update (Function.update k.slot o none) h (some (p, l'))
      expected := Function.update k.expected p (some l') } := by
  intro q
  have hho : h ≠ o := by
    intro hho
    rw [hho, hp] at hempty
    exact absurd hempty (by simp)
  by_cases hqp : q = p
  · subst hqp
    obtain ⟨_, _, hdis, hrel⟩ := hs.held hp
    refine .held h l' (Function.update_self ..) (Function.update_self ..)
      (fun c lc hc => ?_) hdis hrel
    have hc' : Function.update (Function.update k.slot o none) h (some (q, l')) c
      = some (q, lc) := hc
    by_cases hch : c = h
    · exact hch
    · rw [Function.update_of_ne hch] at hc'
      exact absurd hc' (slot_empty hs hp c lc)
  · refine (hs q).frame (fun c lc => ?_) (Function.update_of_ne hqp ..) rfl rfl
    rw [← slot_empty_iff hp hqp c lc]
    refine slot_update_iff (fun l'' hl => ?_) (fun l'' hl => ?_) c lc
    · rw [Function.update_of_ne hho, hempty] at hl
      exact absurd hl (by simp)
    · exact hqp (Prod.mk.inj (Option.some.inj hl)).1.symm

theorem sound_swap (hs : Sound k) : Sound { k with slot := k.slot ∘ Equiv.swap h o } := by
  intro q
  cases hs q with
  | new he hh hd hr => exact .new he (fun c => hh (Equiv.swap h o c)) hd hr
  | held c l he hc hother hd hr =>
      refine .held (Equiv.swap h o c) l he ?_ (fun d l' hd' => ?_) hd hr
      · show k.slot (Equiv.swap h o (Equiv.swap h o c)) = some (q, l)
        rw [Equiv.swap_apply_self]
        exact hc
      · rw [← hother (Equiv.swap h o d) l' hd', Equiv.swap_apply_self]
  | disposed l he hh hd hr => exact .disposed l he (fun c => hh (Equiv.swap h o c)) hd hr
  | released l he hh hd hr => exact .released l he (fun c => hh (Equiv.swap h o c)) hd hr

/-! ### Places that may be empty -/

theorem runs_dispose (k : Book H P L) (h : H) : Runs k { k with
    slot := Function.update k.slot h none, disposed := k.disposed ++ (k.slot h).toList } := by
  cases hs : k.slot h with
  | none =>
      have hsame : Function.update k.slot h none = k.slot := by
        rw [← hs]
        exact Function.update_eq_self h k.slot
      rw [hsame]
      simp only [Option.toList_none, List.append_nil]
      exact .refl
  | some e => exact .single (.dispose h e.1 e.2 hs)

theorem runs_release (k : Book H P L) (h : H) : Runs k { k with
    slot := Function.update k.slot h none
    released := k.released ++ ((k.slot h).map Prod.fst).toList } := by
  cases hs : k.slot h with
  | none =>
      have hsame : Function.update k.slot h none = k.slot := by
        rw [← hs]
        exact Function.update_eq_self h k.slot
      rw [hsame]
      simp only [Option.map_none, Option.toList_none, List.append_nil]
      exact .refl
  | some e => exact .single (.release h e.1 e.2 hs)

theorem runs_move (k : Book H P L) (o h : H) (f : L → L) (hempty : k.slot h = none) :
    Runs k { k with
      slot := Function.update (Function.update k.slot o none) h ((k.slot o).map (Prod.map id f))
      expected := k.relabel (k.slot o) f } := by
  cases hs : k.slot o with
  | none =>
      have hsame : Function.update (Function.update k.slot o none) h none = k.slot := by
        rw [← hs, Function.update_eq_self, hs, ← hempty]
        exact Function.update_eq_self h k.slot
      simp only [Option.map_none, hsame]
      exact .refl
  | some e => exact .single (.move o h e.1 e.2 (f e.2) hs hempty)

/-- **Whatever happens to a book, every object has a fate.** -/
theorem sound_does (hs : Sound k) (hd : Does k k') : Sound k' := by
  cases hd with
  | adopt h p l hempty hnew => exact sound_adopt hs hempty hnew
  | dispose h p l hp => exact sound_dispose hs hp
  | release h p l hp => exact sound_release hs hp
  | move o h p l l' hp hempty => exact sound_move hs hp hempty
  | swap h o => exact sound_swap hs

theorem sound_runs (hs : Sound k) (hd : Runs k k') : Sound k' := by
  induction hd with
  | refl => exact hs
  | tail _ hd ih => exact sound_does ih hd

end Steps

end Lib.Custody
