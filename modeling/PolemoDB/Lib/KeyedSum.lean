import Mathlib.Algebra.BigOperators.Group.List.Basic
import Mathlib.Data.List.Nodup

/-!
# Sums over the held entries of a keyed list

A table is a list of entries with distinct keys; some of the keys are held. The sum of a weight over
the held entries changes by one entry's weight when its key becomes held, or when a held entry
leaves the table.
-/

namespace PolemoDB.Lib

open List Prod

universe u v w

variable {κ : Type u} {β : Type v} {M : Type w}

/-! ## Sums -/

/-- The sum of a weight over the held entries. -/
def heldSum [AddMonoid M] (held : κ → Bool) (f : κ × β → M) (l : List (κ × β)) : M :=
  ((l.filter fun e => held e.1).map f).sum

theorem heldSum_cons [AddMonoid M] (held : κ → Bool) (f : κ × β → M) (e : κ × β)
    (l : List (κ × β)) : heldSum held f (e :: l) =
    if held e.1 then f e + heldSum held f l else heldSum held f l := by
  by_cases h : held e.1 <;> simp [heldSum, h]

variable {l : List (κ × β)} {k : κ} {x : β}

theorem heldSum_congr [AddMonoid M] {held held' : κ → Bool}
    (h : ∀ e ∈ l, held e.1 = held' e.1) (f : κ × β → M) : heldSum held f l = heldSum held' f l := by
  unfold heldSum
  rw [filter_congr h]

/-! ## Looking up and removing -/

theorem eq_of_mem_of_nodup (h : (l.map fst).Nodup) {y : β} (hx : (k, x) ∈ l) (hy : (k, y) ∈ l) :
    x = y :=
  congrArg snd (inj_on_of_nodup_map h hx hy rfl)

variable [DecidableEq κ]

/-- The value of a key. -/
def valueOf (l : List (κ × β)) (k : κ) : Option β := (l.find? fun e => e.1 = k).map snd

/-- The table without a key. -/
def without (l : List (κ × β)) (k : κ) : List (κ × β) := l.filter fun e => e.1 ≠ k

theorem mem_of_valueOf (h : valueOf l k = some x) : (k, x) ∈ l := by
  obtain ⟨e, he, rfl⟩ := Option.map_eq_some_iff.1 h
  have hk : e.1 = k := by simpa using find?_some he
  exact hk ▸ mem_of_find?_eq_some he

theorem valueOf_eq_none_iff : valueOf l k = none ↔ k ∉ l.map fst := by
  simp only [valueOf, Option.map_eq_none_iff, find?_eq_none, mem_map, decide_eq_true_eq]
  exact ⟨fun h ⟨e, he, hk⟩ => h e he hk, fun h e he hk => h ⟨e, he, hk⟩⟩

theorem exists_valueOf (h : k ∈ l.map fst) : ∃ x, valueOf l k = some x :=
  Option.ne_none_iff_exists'.1 fun hn => valueOf_eq_none_iff.1 hn h

theorem valueOf_without_of_ne {k' : κ} (h : k' ≠ k) : valueOf (without l k) k' = valueOf l k' := by
  unfold valueOf without
  rw [find?_filter]
  refine congrArg (fun p => (find? p l).map snd) (funext fun e => ?_)
  by_cases he : e.1 = k' <;> simp [he, h]

theorem mem_without {e : κ × β} : e ∈ without l k ↔ e ∈ l ∧ e.1 ≠ k := by
  simp [without]

theorem without_of_notMem (h : k ∉ l.map fst) : without l k = l := filter_eq_self.2 fun e he => by
    have : e.1 ≠ k := fun hk => h (hk ▸ mem_map_of_mem he)
    simpa using this

theorem nodup_without (k : κ) (h : (l.map fst).Nodup) : ((without l k).map fst).Nodup :=
  h.sublist (filter_sublist.map fst)

theorem without_eq_nil_iff (h : (l.map fst).Nodup) (hx : (k, x) ∈ l) : without l k = [] ↔
    l = [(k, x)] := by
  constructor
  · intro hnil
    have hkey : ∀ e ∈ l, e.1 = k := fun e he => by
      by_contra hne
      exact absurd (mem_without.2 ⟨he, hne⟩) (hnil ▸ not_mem_nil)
    cases l with
    | nil => exact absurd hx not_mem_nil
    | cons e l =>
      cases l with
      | nil => exact congrArg (fun e => [e]) (mem_singleton.1 hx).symm
      | cons e' l =>
        have hne : e.1 ≠ e'.1 := fun heq => (nodup_cons.1 h).1 (heq ▸ mem_cons_self)
        exact absurd ((hkey e (by simp)).trans (hkey e' (by simp)).symm) hne
  · rintro rfl
    simp [without]

theorem without_cons (e : κ × β) (l : List (κ × β)) (k : κ) :
    without (e :: l) k = if e.1 = k then without l k else e :: without l k := by
  by_cases h : e.1 = k <;> simp [without, h]

theorem valueOf_of_mem (h : (l.map fst).Nodup) (hx : (k, x) ∈ l) : valueOf l k = some x := by
  obtain ⟨y, hy⟩ := exists_valueOf (mem_map_of_mem hx)
  rw [hy, eq_of_mem_of_nodup h (mem_of_valueOf hy) hx]

/-! ## Entries leave and become held -/

section AddCommMonoid

variable [AddCommMonoid M]

variable {held : κ → Bool} {k : κ} {l : List (κ × β)} {x : β}

theorem heldSum_without_of_not (hk : held k = false) (f : κ × β → M)
    (l : List (κ × β)) : heldSum held f (without l k) = heldSum held f l := by
  unfold heldSum without
  rw [filter_filter]
  refine congrArg (fun l => (map f l).sum) (filter_congr fun e _ => ?_)
  by_cases h : e.1 = k
  · simp [h, hk]
  · simp [h]

theorem heldSum_without (hk : held k = true) (hnodup : (l.map fst).Nodup) (hx : (k, x) ∈ l)
    (f : κ × β → M) : heldSum held f l = heldSum held f (without l k) + f (k, x) := by
  induction l with
  | nil => exact absurd hx not_mem_nil
  | cons e l ih =>
    obtain ⟨hnot, hnodup⟩ := nodup_cons.1 hnodup
    rcases mem_cons.1 hx with rfl | hx
    · rw [heldSum_cons, if_pos hk, without_cons, if_pos rfl, without_of_notMem hnot, add_comm]
    have hne : e.1 ≠ k := fun h => hnot (h ▸ mem_map_of_mem hx)
    rw [heldSum_cons, without_cons, if_neg hne, heldSum_cons, ih hnodup hx]
    split
    · rw [add_assoc]
    · rfl

theorem heldSum_switch {held' : κ → Bool} (hk : held k = false) (hk' : held' k = true)
    (hrest : ∀ k', k' ≠ k → held' k' = held k') (hnodup : (l.map fst).Nodup)
    (hx : (k, x) ∈ l) (f : κ × β → M) : heldSum held' f l = heldSum held f l + f (k, x) := by
  rw [heldSum_without hk' hnodup hx f, ← heldSum_without_of_not hk f l]
  rw [heldSum_congr fun e he => hrest e.1 (mem_without.1 he).2]

end AddCommMonoid

end PolemoDB.Lib
