import Mathlib.Data.List.GetD
import Mathlib.Tactic.SplitIfs

/-!
# A file that is written at positions

A file is the list of its bytes.  What is not there reads as `default`, so that a file is known by
its length and by what every position reads (`file_ext`), and a hole needs no case of its own.

* `writeAt`, `truncateTo` — `pwrite` and `ftruncate`, with what they leave at each position;
* `applyAll_again` — operations that are applied once more to what they left leave it unchanged.
-/

namespace PolemoDB.Lib

open List

universe u

variable {α : Type u} [Inhabited α] {f g : List α}

/-- `pwrite`: a write behind the end leaves a hole, a write of no bytes leaves the file as it is. -/
def writeAt (file : List α) (offset : Nat) (bytes : List α) : List α :=
  if bytes.length = 0 then file
  else (file ++ replicate (offset - file.length) default).take offset ++ bytes ++
  file.drop (offset + bytes.length)

/-- `ftruncate`: the file is cut, or filled up. -/
def truncateTo (file : List α) (length : Nat) : List α :=
  (file ++ replicate (length - file.length) default).take length

theorem file_ext (hlen : f.length = g.length) (h : ∀ p, f.getD p default = g.getD p default) :
    f = g := by
  refine ext_getElem hlen fun p hf hg => ?_
  have hp := h p
  rwa [getD_eq_getElem f default hf, getD_eq_getElem g default hg] at hp

theorem writeAt_of_le {o : Nat} (h : o ≤ f.length) (b : List α) : writeAt f o b = f.take o ++ b ++
    f.drop (o + b.length) := by
  unfold writeAt
  split
  next hb => rw [length_eq_zero_iff.mp hb, append_nil, length_nil, Nat.add_zero, take_append_drop]
  · rw [Nat.sub_eq_zero_of_le h, replicate_zero, append_nil]

section

variable (f : List α) (o : Nat)

theorem length_writeAt (b : List α) :
    (writeAt f o b).length = if b.length = 0 then f.length else max f.length (o + b.length) := by
  unfold writeAt
  split
  · rfl
  · simp only [length_append, length_take, length_replicate, length_drop]
    omega

theorem length_le_writeAt (b : List α) : f.length ≤ (writeAt f o b).length := by
  rw [length_writeAt]
  split <;> omega

theorem getD_writeAt (b : List α) (p : Nat) : (writeAt f o b).getD p default = if o ≤ p ∧
    p < o + b.length then b.getD (p - o) default else f.getD p default := by
  unfold writeAt
  split
  next h => rw [if_neg (by omega)]
  · simp only [getD_eq_getElem?_getD, getElem?_append, getElem?_take, getElem?_replicate,
      getElem?_drop, length_append, length_take, length_replicate]
    grind

theorem writeAt_append (a b : List α) :
    writeAt (writeAt f o a) (o + a.length) b = writeAt f o (a ++ b) := by
  refine file_ext ?_ fun p => ?_
  · simp only [length_writeAt, length_append]
    split_ifs <;> omega
  rw [getD_writeAt, getD_writeAt, getD_writeAt, length_append]
  rcases Nat.lt_or_ge p (o + a.length) with hp | hp
  · rw [if_neg (by omega)]
    split
    · rw [if_pos (by omega), getD_append _ _ _ _ (by omega)]
    · rw [if_neg (by omega)]
  · refine if_congr (by omega) ?_ (if_neg (by omega))
    rw [getD_append_right _ _ _ _ (by omega), Nat.sub_sub]

theorem length_truncateTo (n : Nat) : (truncateTo f n).length = n := by
  rw [truncateTo, length_take, length_append, length_replicate]
  omega

theorem getD_truncateTo (n p : Nat) :
    (truncateTo f n).getD p default = if p < n then f.getD p default else default := by
  simp only [truncateTo, getD_eq_getElem?_getD, getElem?_take, getElem?_append, getElem?_replicate]
  grind

end

/-! ## Operations applied again -/

/-- An operation on the file. -/
inductive FileOp (α : Type u) where
  | write (offset : Nat) (bytes : List α)
  | truncate (length : Nat)

def FileOp.apply (file : List α) : FileOp α → List α
  | .write offset bytes => writeAt file offset bytes
  | .truncate length => truncateTo file length

/-- The operations, first to last. -/
def applyAll (ops : List (FileOp α)) (file : List α) : List α := ops.foldl FileOp.apply file

theorem applyAll_append (l₁ l₂ : List (FileOp α)) (f : List α) :
    applyAll (l₁ ++ l₂) f = applyAll l₂ (applyAll l₁ f) := foldl_append

/-- What is known of a file `g` on which the operations are repeated, while `f` is the one they are
applied to for the first time and `y` is what they leave in the end: a position reads as in `f` or
as in `y`, and `g` is as long as `f`, or as long as `y` and the writes. -/
structure Ahead (y f g : List α) : Prop where
  read : ∀ p, g.getD p default = f.getD p default ∨ g.getD p default = y.getD p default
  length : g.length = f.length ∨ ∃ e ≤ f.length, g.length = max y.length e

theorem Ahead.apply {y : List α} (h : Ahead y f g) (op : FileOp α) :
    Ahead y (op.apply f) (op.apply g) := by
  cases op with
  | write o b =>
    refine ⟨fun p => ?_, ?_⟩
    · simp only [FileOp.apply, getD_writeAt]
      split
      · exact .inl rfl
      · exact h.read p
    simp only [FileOp.apply, length_writeAt]
    split
    · exact h.length
    · rcases h.length with hlen | ⟨e, he, hlen⟩
      · exact .inl (by rw [hlen])
      · exact .inr ⟨max e (o + b.length), by omega, by omega⟩
  | truncate n =>
    refine ⟨fun p => ?_, .inl ?_⟩
    · simp only [FileOp.apply, getD_truncateTo]
      split
      · exact h.read p
      · exact .inl rfl
    · simp only [FileOp.apply, length_truncateTo]

theorem Ahead.applyAll {y : List α} (h : Ahead y f g) (ops : List (FileOp α))
    (hy : Lib.applyAll ops f = y) : Lib.applyAll ops g = y := by
  induction ops generalizing f g with
  | nil =>
    obtain rfl : f = y := hy
    refine file_ext ?_ fun p => (h.read p).elim id id
    rcases h.length with hlen | ⟨e, he, hlen⟩
    · exact hlen
    · exact hlen.trans (Nat.max_eq_left he)
  | cons op ops ih => exact ih (h.apply op) hy

/-- **Operations that are repeated** on what they left leave it as it is. -/
theorem applyAll_again (ops : List (FileOp α)) (f : List α) :
    applyAll ops (applyAll ops f) = applyAll ops f :=
  Ahead.applyAll ⟨fun _ => .inr rfl,
    .inr ⟨0, Nat.zero_le _, (Nat.max_eq_left (Nat.zero_le _)).symm⟩⟩ ops rfl

end PolemoDB.Lib
