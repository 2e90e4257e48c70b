import Mathlib.Data.List.GetD

/-!
# A ring of numbered items

Items numbered from one are kept in an array of `K` slots, the one numbered `n` in the slot `(n - 1)
% K`.  Within a window of `K` numbers each one has its own slot.
-/

namespace PolemoDB.Lib

universe u

variable {β : Type u}

def slot (q : List (Option β)) (i : Nat) : Option β := q.getD i none

variable {q : List (Option β)} {i : Nat}

theorem slot_set_self (h : i < q.length) (x : Option β) : slot (q.set i x) i = x := by
  rw [slot, List.getD_eq_getElem?_getD, List.getElem?_set_self h, Option.getD_some]

theorem slot_set_ne {j : Nat} (h : i ≠ j) (x : Option β) : slot (q.set i x) j = slot q j := by
  rw [slot, slot, List.getD_eq_getElem?_getD, List.getElem?_set_ne h, List.getD_eq_getElem?_getD]

theorem slot_eq_some_iff {x : β} : slot q i = some x ↔ q[i]? = some (some x) := by
  rw [slot, List.getD_eq_getElem?_getD]
  cases q[i]? with
  | none => simp
  | some y => simp

theorem some_mem_iff {x : β} : some x ∈ q ↔ ∃ i, slot q i = some x := by
  rw [List.mem_iff_getElem?]
  exact exists_congr fun i => slot_eq_some_iff.symm

theorem slot_replicate (K i : Nat) : slot (List.replicate K (none : Option β)) i = none := by
  rw [slot, List.getD_eq_getElem?_getD, List.getElem?_replicate]
  split
  · rfl
  · rfl

theorem ring_inj {K base a b : Nat} (ha : base < a) (ha' : a ≤ base + K) (hb : base < b)
    (hb' : b ≤ base + K) (h : (a - 1) % K = (b - 1) % K) : a = b := by
  rcases Nat.le_total a b with hle | hle
  · have hmod := Nat.sub_mod_eq_zero_of_mod_eq h.symm
    rw [Nat.mod_eq_of_lt (by omega)] at hmod
    omega
  · have hmod := Nat.sub_mod_eq_zero_of_mod_eq h
    rw [Nat.mod_eq_of_lt (by omega)] at hmod
    omega

end PolemoDB.Lib
