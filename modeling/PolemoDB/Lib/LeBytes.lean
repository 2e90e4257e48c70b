import Mathlib.Data.List.Basic
import Mathlib.Tactic.Ring

/-!
# Little-endian byte images

`leBytes n x` is the `n`-byte image of the number `x`, `ofLeBytes` reads one back, and
`wordBytes` / `readWords` do the same for arrays of fixed-width words, as a plain memory copy
does.

Principal results: `ofLeBytes_leBytes` and `readWords_wordBytes` (what is copied out is what was
copied in, whatever follows it in memory).
-/

namespace PolemoDB.Lib

open List

/-- The low `n` bytes of `x`, least significant first. -/
def leBytes : Nat → Nat → List (BitVec 8)
  | 0, _ => []
  | n + 1, x => BitVec.ofNat 8 x :: leBytes n (x / 256)

/-- The number whose little-endian image is the list. -/
def ofLeBytes : List (BitVec 8) → Nat
  | [] => 0
  | b :: bs => b.toNat + 256 * ofLeBytes bs

@[simp] theorem leBytes_length (n x : Nat) : (leBytes n x).length = n := by
  induction n generalizing x with
  | zero => rfl
  | succ n ih => simp [leBytes, ih]

theorem ofLeBytes_leBytes (n x : Nat) : ofLeBytes (leBytes n x) = x % 256 ^ n := by
  induction n generalizing x with
  | zero => simp [leBytes, ofLeBytes, Nat.mod_one]
  | succ n ih =>
    simp only [leBytes, ofLeBytes, ih, BitVec.toNat_ofNat]
    rw [show 256 ^ (n + 1) = 256 * 256 ^ n by ring, Nat.mod_mul]

theorem ofLeBytes_leBytes_of_lt {n x : Nat} (h : x < 256 ^ n) : ofLeBytes (leBytes n x) = x := by
  rw [ofLeBytes_leBytes, Nat.mod_eq_of_lt h]

/-! ## Arrays of words -/

variable {w : Nat}

/-- Memory image of an array of words of `n` bytes each. -/
def wordBytes (n : Nat) (ws : List (BitVec w)) : List (BitVec 8) :=
  ws.flatMap (fun x => leBytes n x.toNat)

/-- Read `count` words of `n` bytes each from memory. -/
def readWords (w n : Nat) : Nat → List (BitVec 8) → List (BitVec w)
  | 0, _ => []
  | count + 1, mem => BitVec.ofNat w (ofLeBytes (mem.take n)) :: readWords w n count (mem.drop n)

@[simp] theorem wordBytes_length (n : Nat) (ws : List (BitVec w)) :
    (wordBytes n ws).length = n * ws.length := by
  induction ws with
  | nil => rfl
  | cons x ws ih =>
    unfold wordBytes at ih
    simp only [wordBytes, flatMap_cons, length_append, leBytes_length, length_cons, ih]
    ring

/-- **A copied array is read back unchanged**, for words that fill their bytes. -/
theorem readWords_wordBytes {n : Nat} (hw : 2 ^ w ≤ 256 ^ n) (ws : List (BitVec w))
    (rest : List (BitVec 8)) : readWords w n ws.length (wordBytes n ws ++ rest) = ws := by
  induction ws with
  | nil => rfl
  | cons x ws ih =>
    have hx : x.toNat < 256 ^ n := lt_of_lt_of_le x.isLt hw
    simp only [wordBytes, flatMap_cons, length_cons, readWords, append_assoc]
    rw [take_left' (leBytes_length _ _), drop_left' (leBytes_length _ _),
      ofLeBytes_leBytes_of_lt hx, BitVec.ofNat_toNat, BitVec.setWidth_eq]
    unfold wordBytes at ih
    rw [ih]

/-! ## Block copies -/

variable {α : Type}

/-- `mem` with the cells from offset `off` on overwritten by `xs`. -/
def memcpyAt (mem : List α) (off : Nat) (xs : List α) : List α :=
  mem.take off ++ xs ++ mem.drop (off + xs.length)

@[simp] theorem memcpyAt_nil (mem : List α) (off : Nat) : memcpyAt mem off [] = mem := by
  simp [memcpyAt]

theorem memcpyAt_length {mem xs : List α} {off : Nat} (h : off + xs.length ≤ mem.length) :
    (memcpyAt mem off xs).length = mem.length := by
  simp [memcpyAt]; omega

theorem memcpyAt_append {mem xs ys : List α} {off : Nat} (h : off + xs.length ≤ mem.length) :
    memcpyAt (memcpyAt mem off xs) (off + xs.length) ys = memcpyAt mem off (xs ++ ys) := by
  have hl : (mem.take off ++ xs).length = off + xs.length := by simp; omega
  simp only [memcpyAt]
  rw [take_left' hl, ← drop_drop, drop_left' hl, drop_drop, length_append, Nat.add_assoc]
  simp [append_assoc]

theorem set_eq_memcpyAt {mem : List α} {off : Nat} (h : off < mem.length) (x : α) :
    mem.set off x = memcpyAt mem off [x] := by
  rw [set_eq_take_cons_drop _ h, memcpyAt]
  simp

theorem memcpyAt_set {mem : List α} {off : Nat} (h : off < mem.length) (x : α) (xs : List α) :
    memcpyAt (mem.set off x) (off + 1) xs = memcpyAt mem off (x :: xs) := by
  rw [set_eq_memcpyAt h]
  exact memcpyAt_append (show off + [x].length ≤ mem.length from h)

theorem getElem?_memcpyAt {mem xs : List α} {off : Nat} (h : off + xs.length ≤ mem.length)
    (i : Nat) : (memcpyAt mem off xs)[i]? = if off ≤ i ∧
    i < off + xs.length then xs[i - off]? else mem[i]? := by
  unfold memcpyAt
  have htake : (mem.take off).length = off := by rw [length_take]; omega
  rw [append_assoc, getElem?_append, htake]
  by_cases h1 : i < off
  · rw [if_pos h1, if_neg (by omega), getElem?_take_of_lt h1]
  rw [if_neg h1, getElem?_append]
  by_cases h2 : i - off < xs.length
  · rw [if_pos h2, if_pos (by omega)]
  · rw [if_neg h2, if_neg (by omega), getElem?_drop]
    congr 1
    omega

theorem getD_memcpyAt_slice {mem xs : List α} {off a n : Nat} (hx : a + n ≤ xs.length)
    (hm : off + n ≤ mem.length) (d : α) (i : Nat) :
    (memcpyAt mem off ((xs.drop a).take n)).getD i d =
      if off ≤ i ∧ i < off + n then xs.getD (a + (i - off)) d else mem.getD i d := by
  have hlen : ((xs.drop a).take n).length = n := by
    rw [length_take, length_drop]
    omega
  rw [getD_eq_getElem?_getD, getElem?_memcpyAt (by omega), hlen, getD_eq_getElem?_getD,
    getD_eq_getElem?_getD]
  by_cases h : off ≤ i ∧ i < off + n
  · rw [if_pos h, if_pos h, getElem?_take_of_lt (by omega), getElem?_drop]
  · rw [if_neg h, if_neg h]

theorem memcpyAt_slice {mem mem' : List α} {off n : Nat} (hlen : mem.length = mem'.length)
    (hin : off + n ≤ mem'.length) (hout : ∀ i, i < off ∨ off + n ≤ i → mem[i]? = mem'[i]?) :
    memcpyAt mem off ((mem'.drop off).take n) = mem' := by
  have hslice : ((mem'.drop off).take n).length = n := by
    rw [length_take, length_drop]
    omega
  apply ext_getElem?
  intro i
  rw [getElem?_memcpyAt (by omega), hslice]
  by_cases h : off ≤ i ∧ i < off + n
  · rw [if_pos h, getElem?_take_of_lt (by omega), getElem?_drop, Nat.add_sub_cancel' h.1]
  · rw [if_neg h]
    exact hout i (by omega)

theorem memcpyAt_zero (mem xs : List α) : memcpyAt mem 0 xs = xs ++ mem.drop xs.length := by
  simp [memcpyAt]

end PolemoDB.Lib
