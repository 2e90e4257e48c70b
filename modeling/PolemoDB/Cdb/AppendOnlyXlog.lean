import PolemoDB.Lib.ByteFile

/-!
# Replay of append-only records on a mirror (`cdb/cdbappendonlyxlog.c`)

The records of one segment file carry what the primary wrote into it and where it cut it.  A replay
that starts again meets a file that is ahead of the records.

* `aoReplay_repeatable` — the records from `s` on, replayed on the file as of `m`, leave the file as
  of `t`.
-/

namespace PolemoDB.Cdb

open PolemoDB.Lib List

/-- `xl_ao_insert` with its data, and `xl_ao_truncate`. -/
inductive AoRecord where
  | insert (offset : Nat) (buffer : List (BitVec 8))
  | truncate (offset : Nat)
deriving DecidableEq, Repr

open AoRecord

/-- The segment file on the mirror, if it is there, and whether `XLogAOSegmentFile` was called for
it. -/
structure MirrorFile where
  file : Option (List (BitVec 8))
  missing : Bool
deriving DecidableEq, Repr

/-- `ao_insert_replay`. -/
def aoInsertReplay (offset : Nat) (buffer : List (BitVec 8)) (s : MirrorFile) : MirrorFile :=
  -- a write from the beginning opens the file with `O_CREAT`
  match if offset = 0 then some (s.file.getD []) else s.file with
  | none => { s with missing := true }
  | some file => { s with file := some (writeAt file offset buffer) }

/-- `ao_truncate_replay`. -/
def aoTruncateReplay (offset : Nat) (s : MirrorFile) : MirrorFile :=
  match s.file with
  | none => if offset ≠ 0 then { s with missing := true } else s
  | some file => { s with file := some (truncateTo file offset) }

/-- `appendonly_redo`, without its early return in crash recovery, where nothing is replayed. -/
def appendonlyRedo (s : MirrorFile) : AoRecord → MirrorFile
  | .insert offset buffer => aoInsertReplay offset buffer s
  | .truncate offset => aoTruncateReplay offset s

def aoRedoAll (rs : List AoRecord) (s : MirrorFile) : MirrorFile := rs.foldl appendonlyRedo s

/-! ## The primary -/

/-- What the primary did before it wrote the record. -/
def AoRecord.op : AoRecord → FileOp (BitVec 8)
  | .insert offset buffer => .write offset buffer
  | .truncate offset => .truncate offset

def AoRecord.isInsert : AoRecord → Bool
  | .insert _ _ => true
  | .truncate _ => false

/-- The file that the records leave, once one of them has written into it. -/
def fileAfter (rs : List AoRecord) : Option (List (BitVec 8)) :=
  if rs.any isInsert then some (applyAll (rs.map op) []) else none

/-- The first insert is at offset 0, and what is truncated before it is empty. -/
def FromCreation : List AoRecord → Prop
  | [] => True
  | .insert offset _ :: _ => offset = 0
  | .truncate offset :: rs => offset = 0 ∧ FromCreation rs

/-! ## Replay -/

variable {rs l₁ l₂ : List AoRecord} {file : List (BitVec 8)} {missing : Bool}

theorem aoRedoAll_some (rs : List AoRecord) (file : List (BitVec 8)) :
    aoRedoAll rs ⟨some file, missing⟩ = ⟨some (applyAll (rs.map op) file), missing⟩ := by
  induction rs generalizing file with
  | nil => rfl
  | cons r rs ih =>
    cases r with
    | insert offset buffer =>
      refine Eq.trans (congrArg (aoRedoAll rs) ?_) (ih (writeAt file offset buffer))
      show aoInsertReplay offset buffer _ = _
      unfold aoInsertReplay
      split
      next h =>
        split at h <;> cases h
      next h =>
        split at h <;> cases h <;> rfl
    | truncate offset => exact ih (truncateTo file offset)

theorem aoRedoAll_none (h : FromCreation rs) : aoRedoAll rs ⟨none, missing⟩ =
    ⟨fileAfter rs, missing⟩ := by
  induction rs with
  | nil => rfl
  | cons r rs ih =>
    cases r with
    | insert offset buffer =>
      obtain rfl : offset = 0 := h
      exact aoRedoAll_some rs (writeAt [] 0 buffer)
    | truncate offset =>
      obtain ⟨rfl, h⟩ := h
      exact ih h

theorem FromCreation.skip (h : FromCreation (l₁ ++ l₂)) (hno : l₁.any isInsert = false) :
    FromCreation l₂ ∧ fileAfter (l₁ ++ l₂) = fileAfter l₂ := by
  induction l₁ with
  | nil => exact ⟨h, rfl⟩
  | cons r l₁ ih =>
    cases r with
    | insert offset buffer => cases hno
    | truncate offset =>
      obtain ⟨rfl, h⟩ := h
      exact ih h hno

theorem FromCreation.take (h : FromCreation rs) (n : Nat) : FromCreation (rs.take n) := by
  induction rs generalizing n with
  | nil => rwa [take_nil]
  | cons r rs ih =>
    cases n with
    | zero => trivial
    | succ n =>
      cases r with
      | insert offset buffer => exact h
      | truncate offset => exact ⟨h.1, ih h.2 n⟩

/-- **Replay is repeatable**: the records from `s` to `t`, replayed on the file as of a time
between, leave the file as of `t`, and no file is reported as missing. -/
theorem aoReplay_repeatable (rs : List AoRecord) (s m t : Nat) (hsm : s ≤ m) (hmt : m ≤ t)
    (hrs : FromCreation rs) : aoRedoAll ((rs.take t).drop s) ⟨fileAfter (rs.take m), false⟩ =
    ⟨fileAfter (rs.take t), false⟩ := by
  obtain ⟨k, rfl⟩ := Nat.exists_eq_add_of_le hsm
  obtain ⟨j, rfl⟩ := Nat.exists_eq_add_of_le hmt
  have hall := hrs.take (s + k + j)
  rw [drop_take, show s + k + j - s = k + j by omega]
  simp only [Nat.add_assoc, take_add] at hall ⊢
  -- the records up to `s`, those up to `m` behind them, and the rest
  generalize rs.take s = a, (rs.drop s).take k = b, ((rs.drop s).drop k).take j = c at *
  cases hany : (a ++ b).any isInsert with
  | false =>
    rw [fileAfter, hany, if_neg Bool.false_ne_true]
    rw [any_append, Bool.or_eq_false_iff] at hany
    obtain ⟨hskip, heq⟩ := hall.skip hany.1
    rw [aoRedoAll_none hskip, heq]
  | true =>
    have hany' : (a ++ (b ++ c)).any isInsert = true := by
      rw [← append_assoc, any_append, hany, Bool.true_or]
    rw [fileAfter, if_pos hany, fileAfter, if_pos hany', aoRedoAll_some]
    simp only [map_append, applyAll_append, applyAll_again]

/-- A segment that is written, cut and written again, replayed from its first record on. -/
theorem aoReplay_repeatable_cut :
    aoRedoAll [.insert 0 [1, 2, 3], .truncate 1, .insert 1 [4]] ⟨some [1], false⟩ =
    ⟨some [1, 4], false⟩ :=
  aoReplay_repeatable [.insert 0 [1, 2, 3], .truncate 1, .insert 1 [4]] 0 2 3 (by decide)
    (by decide) rfl

/-- **A file that is not there yet**: a record that truncates it to another length than 0 is
reported. -/
theorem aoTruncate_missing : aoRedoAll [.truncate 5] ⟨fileAfter [], false⟩ = ⟨none, true⟩ := rfl

end PolemoDB.Cdb
