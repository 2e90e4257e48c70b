import PolemoDB.Bitmap.Word

/-!
# Shifting header bits (`bitmapinsert.c`)

The header bits of a bitmap page or of a buffer are one bit sequence packed into words, most
significant bit first (`bitAt`).  The three shifts work on the words in place; what they do to the
sequence:

* `bitAt_shiftHeaderBits` — the bits from `startLoc` on move right, zeros come in.
-/

namespace PolemoDB.Bitmap

open PolemoDB.Lib List BitVec

/-! ## The code -/

/-- The loop of `rshift_header_bits`; `shiftingBits` come from the word before. -/
def rshiftLoop (bits : Nat) : BM_HRL_WORD → List BM_HRL_WORD → List BM_HRL_WORD
  | _, [] => []
  | shiftingBits, word :: words =>
    ((word >>> bits) ||| shiftingBits) :: rshiftLoop bits (word <<< (64 - bits)) words

def rshiftHeaderBits (words : List BM_HRL_WORD) (bits : Nat) : List BM_HRL_WORD :=
  rshiftLoop bits 0 words

/-- One round of `lshift_header_bits`. -/
def lshiftStep (bits : Nat) (words : List BM_HRL_WORD) (wordNo : Nat) : List BM_HRL_WORD :=
  let shiftingBits := words.getD wordNo 0 >>> (64 - bits)
  let words := words.set wordNo (words.getD wordNo 0 <<< bits)
  if wordNo ≠ 0 then words.set (wordNo - 1) (words.getD (wordNo - 1) 0 ||| shiftingBits) else words

/-- `lshift_header_bits`, on the first `nwords` words. -/
def lshiftHeaderBits (words : List BM_HRL_WORD) (nwords bits : Nat) : List BM_HRL_WORD :=
  (List.range nwords).foldl (lshiftStep bits) words

/-- One round of the loop of `shift_header_bits`. -/
def shiftStep (maxNumOfWords numOfShiftingBits : Nat) (words : List BM_HRL_WORD) (wordNo : Nat) :
    List BM_HRL_WORD :=
  let tmpWord := words.getD wordNo 0 <<< (64 - numOfShiftingBits)
  let words := words.set wordNo (words.getD wordNo 0 >>> numOfShiftingBits)
  if wordNo < maxNumOfWords - 1 then words.set (wordNo + 1) (words.getD (wordNo + 1) 0 ||| tmpWord)
  else words

/-- The loop of `shift_header_bits`, from word `startWordNo + n` down to the one after
`startWordNo`. -/
def shiftLoop (maxNumOfWords numOfShiftingBits startWordNo : Nat) : Nat → List BM_HRL_WORD →
    List BM_HRL_WORD
  | 0, words => words
  | n + 1, words =>
    shiftLoop maxNumOfWords numOfShiftingBits startWordNo n
      (shiftStep maxNumOfWords numOfShiftingBits words (startWordNo + n + 1))

def shiftHeaderBits (words : List BM_HRL_WORD) (numOfBits maxNumOfWords startLoc numOfShiftingBits :
    Nat) : List BM_HRL_WORD :=
  let startWordNo := startLoc / 64
  let endWordNo := (numOfBits - 1) / 64
  let words := shiftLoop maxNumOfWords numOfShiftingBits startWordNo (endWordNo - startWordNo) words
  let r := startLoc % 64
  let tmpWord := (words.getD startWordNo 0 <<< r) >>> r
  -- a shift by the word size is not possible, so a whole word is cleared by an assignment
  let words := words.set startWordNo
    (if r > 0 then (words.getD startWordNo 0 >>> (64 - r)) <<< (64 - r) else 0)
  let numOfFinalShiftingBits := if 64 - r < numOfShiftingBits then 64 - r else numOfShiftingBits
  let words := words.set startWordNo
    (words.getD startWordNo 0 ||| (tmpWord >>> numOfFinalShiftingBits))
  if startWordNo < maxNumOfWords - 1 then
    let tmpWord := (tmpWord <<< (64 - numOfFinalShiftingBits)) >>>
      (numOfShiftingBits - numOfFinalShiftingBits)
    words.set (startWordNo + 1) (words.getD (startWordNo + 1) 0 ||| tmpWord)
  else words

/-! ## Words of an updated list -/

theorem getD_set (ws : List BM_HRL_WORD) (k : Nat) (x : BM_HRL_WORD) (j : Nat) :
    (ws.set k x).getD j 0 = if j = k ∧ k < ws.length then x else ws.getD j 0 := by
  by_cases hk : k = j
  · subst hk
    by_cases hl : k < ws.length <;> simp [hl]
  · have : ¬ j = k := fun h => hk h.symm
    simp [hk, this]

theorem getMsbD_shiftRight (x : BM_HRL_WORD) (n i : Nat) (hi : i < 64) :
    (x >>> n).getMsbD i = (decide (n ≤ i) && x.getMsbD (i - n)) := by
  by_cases h : n ≤ i
  · simp [h, hi]
  · simp [h, Nat.lt_of_not_le h]

/-! ## Right shift -/

@[simp] theorem rshiftHeaderBits_length (ws : List BM_HRL_WORD) (bits : Nat) :
    (rshiftHeaderBits ws bits).length = ws.length := by
  have h : ∀ sh, (rshiftLoop bits sh ws).length = ws.length := by
    induction ws with
    | nil => intro; rfl
    | cons w ws ih => simp [rshiftLoop, ih]
  exact h 0

variable {bits i m s j startLoc numOfBits r : Nat} {ws : List BM_HRL_WORD}

theorem bitAt_rshiftLoop (hbits : bits < 64) (sh : BM_HRL_WORD)
    (hsh : ∀ i, bits ≤ i → sh.getMsbD i = false) (ws : List BM_HRL_WORD)
    (hi : i < 64 * ws.length) :
    bitAt (rshiftLoop bits sh ws) i = if i < bits then sh.getMsbD i else bitAt ws (i - bits) := by
  induction ws generalizing sh i with
  | nil => simp at hi
  | cons w ws ih =>
    unfold rshiftLoop
    by_cases h64 : i < 64
    · rw [bitAt_cons_lt _ _ h64, getMsbD_or, getMsbD_shiftRight _ _ _ h64]
      by_cases hb : i < bits
      · simp [hb]
      · rw [if_neg hb, bitAt_cons_lt _ _ (by omega), hsh i (by omega)]
        simp
        omega
    obtain ⟨k, rfl⟩ : ∃ k, i = 64 + k := ⟨i - 64, by omega⟩
    rw [length_cons] at hi
    rw [bitAt_cons_add (by decide), if_neg (by omega), ih (w <<< (64 - bits)) _ (by omega)]
    · by_cases hk : k < bits
      · rw [if_pos hk, getMsbD_shiftLeft, bitAt_cons_lt _ _ (by omega)]
        congr 1
        omega
      · rw [if_neg hk, show 64 + k - bits = 64 + (k - bits) by omega, bitAt_cons_add (by decide)]
    · intro j hj
      rw [getMsbD_shiftLeft]
      exact getMsbD_of_ge _ _ (by omega)

theorem bitAt_rshiftHeaderBits (hbits : bits < 64) (ws : List BM_HRL_WORD)
    (hi : i < 64 * ws.length) :
    bitAt (rshiftHeaderBits ws bits) i = if i < bits then false else bitAt ws (i - bits) := by
  have h := bitAt_rshiftLoop hbits 0 (fun i _ => getMsbD_zero) ws hi
  rw [show getMsbD 0 i = false from getMsbD_zero] at h
  exact h

/-! ## Left shift -/

@[simp] theorem lshiftStep_length (bits : Nat) (ws : List BM_HRL_WORD) (no : Nat) :
    (lshiftStep bits ws no).length = ws.length := by
  unfold lshiftStep
  split <;> simp

section

variable (ws : List BM_HRL_WORD)

@[simp] theorem lshiftHeaderBits_length (n bits : Nat) :
    (lshiftHeaderBits ws n bits).length = ws.length := by
  unfold lshiftHeaderBits
  induction n with
  | zero => rfl
  | succ n ih => rw [range_succ, foldl_append]; simp [ih]

theorem getD_lshiftStep (bits : Nat) {no : Nat} (hno : no < ws.length) (j : Nat) :
    (lshiftStep bits ws no).getD j 0 =
      if j = no then ws.getD no 0 <<< bits
      else if j + 1 = no then ws.getD j 0 ||| (ws.getD no 0 >>> (64 - bits)) else ws.getD j 0 := by
  unfold lshiftStep
  by_cases h0 : no = 0
  · grind
  · grind

/-- The words after `n` rounds: each has taken the bits that the next one lost, except the last. -/
theorem getD_lshiftHeaderBits (bits : Nat) {n : Nat} (hn : n ≤ ws.length) (j : Nat) :
    (lshiftHeaderBits ws n bits).getD j 0 =
      if j + 1 < n then (ws.getD j 0 <<< bits) ||| (ws.getD (j + 1) 0 >>> (64 - bits))
      else if j + 1 = n then ws.getD j 0 <<< bits else ws.getD j 0 := by
  induction n generalizing j with
  | zero => rfl
  | succ n ih =>
    have hstep : lshiftHeaderBits ws (n + 1) bits =
        lshiftStep bits (lshiftHeaderBits ws n bits) n := by
      unfold lshiftHeaderBits
      rw [range_succ, foldl_append]
      rfl
    have hcur := ih (by omega) n
    rw [hstep, getD_lshiftStep _ _ (by rw [lshiftHeaderBits_length]; omega), hcur, ih (by omega) j]
    grind

/-- The left shift moves every bit of the first `n` words; zeros come in. -/
theorem bitAt_lshiftHeaderBits {n : Nat} (hbits : bits < 64) (hn : n ≤ ws.length)
    (hi : i < 64 * n) : bitAt (lshiftHeaderBits ws n bits) i =
    (decide (i + bits < 64 * n) && bitAt ws (i + bits)) := by
  have hi64 := Nat.mod_lt i (show 0 < 64 by decide)
  unfold bitAt
  rw [getD_lshiftHeaderBits ws bits hn]
  by_cases hlast : i / 64 + 1 < n
  · rw [if_pos hlast, getMsbD_or, getMsbD_shiftLeft, getMsbD_shiftRight _ _ _ hi64,
      decide_eq_true (show i + bits < 64 * n by omega), Bool.true_and]
    by_cases hin : i % 64 + bits < 64
    · rw [decide_eq_false (by omega), Bool.false_and, Bool.or_false,
        show (i + bits) / 64 = i / 64 by omega, show (i + bits) % 64 = i % 64 + bits by omega]
    rw [getMsbD_of_ge _ _ (show 64 ≤ i % 64 + bits by omega), Bool.false_or,
      decide_eq_true (by omega), Bool.true_and,
      show (i + bits) / 64 = i / 64 + 1 by omega,
      show (i + bits) % 64 = i % 64 - (64 - bits) by omega]
  · rw [if_neg hlast, if_pos (by omega), getMsbD_shiftLeft]
    by_cases hin : i % 64 + bits < 64
    · rw [decide_eq_true (by omega), Bool.true_and, show (i + bits) / 64 = i / 64 by omega,
        show (i + bits) % 64 = i % 64 + bits by omega]
    · rw [decide_eq_false (by omega), Bool.false_and, getMsbD_of_ge _ _ (by omega)]

end

/-! ## Shift from a position on -/

theorem shiftStep_length (m s : Nat) (ws : List BM_HRL_WORD) (no : Nat) :
    (shiftStep m s ws no).length = ws.length := by
  unfold shiftStep
  split <;> simp

theorem shiftLoop_length (m s a n : Nat) (ws : List BM_HRL_WORD) :
    (shiftLoop m s a n ws).length = ws.length := by
  induction n generalizing ws with
  | zero => rfl
  | succ n ih => rw [shiftLoop, ih, shiftStep_length]

theorem getD_shiftStep {no : Nat} (hm : ws.length = m) (hno : no < m) (j : Nat) :
    (shiftStep m s ws no).getD j 0 =
      if j = no then ws.getD no 0 >>> s
      else if j = no + 1 ∧
      j < m then ws.getD j 0 ||| (ws.getD no 0 <<< (64 - s)) else ws.getD j 0 := by
  unfold shiftStep
  by_cases hlast : no < m - 1
  · grind
  · grind

theorem getD_shiftLoop {a : Nat} (n : Nat) (hm : ws.length = m) (hn : a + n < m) (j : Nat) :
    (shiftLoop m s a n ws).getD j 0 =
      if j ≤ a ∨ a + n + 1 < j ∨ n = 0 ∨ m ≤ j then ws.getD j 0
      else (if j = a + n + 1 then ws.getD j 0 else ws.getD j 0 >>> s) |||
        (if j = a + 1 then 0 else ws.getD (j - 1) 0 <<< (64 - s)) := by
  induction n generalizing ws with
  | zero => simp [shiftLoop]
  | succ n ih =>
    rw [shiftLoop, ih (by rw [shiftStep_length]; exact hm) (by omega)]
    simp only [getD_shiftStep hm (show a + n + 1 < m by omega)]
    grind

theorem getD_eq_zero_of_bitAt (h : ∀ i, 64 * j ≤ i → i < 64 * j + 64 → bitAt ws i = false) :
    ws.getD j 0 = 0 := by
  apply eq_of_getMsbD_eq
  intro r hr
  have := h (64 * j + r) (by omega) (by omega)
  unfold bitAt at this
  rw [show (64 * j + r) / 64 = j by omega, show (64 * j + r) % 64 = r by omega] at this
  rw [this]
  exact getMsbD_zero.symm

theorem getD_shiftLoop_of_clean (hm : ws.length = m)
    (hend : (numOfBits - 1) / 64 < m) (hclean : ∀ i, numOfBits ≤ i → bitAt ws i = false)
    (hj : startLoc / 64 < j) (hjm : j < m) :
    (shiftLoop m s (startLoc / 64) ((numOfBits - 1) / 64 - startLoc / 64) ws).getD j 0 =
      (ws.getD j 0 >>> s) |||
      (if j = startLoc / 64 + 1 then 0 else ws.getD (j - 1) 0 <<< (64 - s)) := by
  have hzero : ∀ k, (numOfBits - 1) / 64 < k → ws.getD k 0 = 0 := by
    intro k hk
    exact getD_eq_zero_of_bitAt fun i hi _ => hclean i (by omega)
  by_cases hle : (numOfBits - 1) / 64 ≤ startLoc / 64
  · rw [Nat.sub_eq_zero_of_le hle, shiftLoop, hzero j (by omega)]
    by_cases hj' : j = startLoc / 64 + 1
    · simp [hj']
    · rw [if_neg hj', hzero (j - 1) (by omega)]
      simp
  rw [getD_shiftLoop _ hm (by omega)]
  by_cases hbeyond : startLoc / 64 + ((numOfBits - 1) / 64 - startLoc / 64) + 1 < j
  · rw [if_pos (by omega), hzero j (by omega), hzero (j - 1) (by omega)]
    simp
  rw [if_neg (by omega)]
  by_cases hlast : j = startLoc / 64 + ((numOfBits - 1) / 64 - startLoc / 64) + 1
  · rw [if_pos hlast, hzero j (by omega)]
    simp
  · rw [if_neg hlast]

theorem shiftHeaderBits_length (ws : List BM_HRL_WORD) (n m l s : Nat) :
    (shiftHeaderBits ws n m l s).length = ws.length := by
  unfold shiftHeaderBits
  dsimp only
  split <;> simp [shiftLoop_length]

theorem getMsbD_keep (x : BM_HRL_WORD) (hi : i < 64) :
    (if r > 0 then (x >>> (64 - r)) <<< (64 - r) else 0).getMsbD i =
    (decide (i < r) && x.getMsbD i) := by
  by_cases h0 : r > 0
  · rw [if_pos h0, getMsbD_shiftLeft]
    by_cases h : i < r
    · rw [decide_eq_true h, Bool.true_and]
      by_cases hr : r ≤ 64
      · rw [getMsbD_shiftRight _ _ _ (by omega), decide_eq_true (by omega), Bool.true_and,
          Nat.add_sub_cancel]
      · rw [show 64 - r = 0 by omega]
        simp
    · rw [decide_eq_false h, Bool.false_and, getMsbD_of_ge _ _ (by omega)]
  · rw [if_neg h0, decide_eq_false (by omega), Bool.false_and]
    exact getMsbD_zero

theorem getMsbD_low (x : BM_HRL_WORD) (hi : i < 64) :
    ((x <<< r) >>> r).getMsbD i = (decide (r ≤ i) && x.getMsbD i) := by
  rw [getMsbD_shiftRight _ _ _ hi, getMsbD_shiftLeft]
  by_cases h : r ≤ i
  · rw [Nat.sub_add_cancel h]
  · rw [decide_eq_false h, Bool.false_and, Bool.false_and]

theorem getMsbD_carry (x : BM_HRL_WORD) (hs : s ≤ 64) (hr : r < 64) (hi : i < 64) :
    ((((x <<< r) >>> r) <<< (64 - (if 64 - r < s then 64 - r else s))) >>>
        (s - (if 64 - r < s then 64 - r else s))).getMsbD i =
      (decide (i < s) && decide (r ≤ i + 64 - s) && x.getMsbD (i + 64 - s)) := by
  rw [getMsbD_shiftRight _ _ _ hi, getMsbD_shiftLeft]
  by_cases hlt : i < s
  · by_cases hf : 64 - r < s
    · rw [if_pos hf]
      by_cases hle : s - (64 - r) ≤ i
      · rw [getMsbD_low _ (by omega),
          show i - (s - (64 - r)) + (64 - (64 - r)) = i + 64 - s by omega]
        simp [hlt, hle]
      · rw [decide_eq_false hle, decide_eq_false (show ¬ r ≤ i + 64 - s by omega)]
        simp
    · rw [if_neg hf, getMsbD_low _ (by omega), show i - (s - s) + (64 - s) = i + 64 - s by omega]
      simp [hlt]
  · rw [decide_eq_false hlt, getMsbD_of_ge _ _ (by split <;> omega)]
    simp

theorem getD_shiftHeaderBits (hm : ws.length = m) (hstart : startLoc / 64 < m)
    (hend : (numOfBits - 1) / 64 < m) (hclean : ∀ i, numOfBits ≤ i → bitAt ws i = false)
    (hj : j < m) : (shiftHeaderBits ws numOfBits m startLoc s).getD j 0 =
      let r := startLoc % 64
      let f := if 64 - r < s then 64 - r else s
      let x := ws.getD (startLoc / 64) 0
      if j < startLoc / 64 then ws.getD j 0
      else if j = startLoc / 64 then
        (if r > 0 then (x >>> (64 - r)) <<< (64 - r) else 0) ||| (((x <<< r) >>> r) >>> f)
      else (ws.getD j 0 >>> s) |||
        (if j = startLoc / 64 + 1 then (((x <<< r) >>> r) <<< (64 - f)) >>> (s - f)
          else ws.getD (j - 1) 0 <<< (64 - s)) := by
  have hlen := shiftLoop_length m s (startLoc / 64) ((numOfBits - 1) / 64 - startLoc / 64) ws
  have hfirst : ∀ j, j ≤ startLoc / 64 →
      (shiftLoop m s (startLoc / 64) ((numOfBits - 1) / 64 - startLoc / 64) ws).getD j 0 =
      ws.getD j 0 := by
    intro j hj
    by_cases hle : (numOfBits - 1) / 64 ≤ startLoc / 64
    · rw [Nat.sub_eq_zero_of_le hle, shiftLoop]
    · rw [getD_shiftLoop _ hm (by omega), if_pos (.inl hj)]
  have hrest := fun (h : startLoc / 64 < j) => getD_shiftLoop_of_clean (s := s) hm hend hclean h hj
  unfold shiftHeaderBits
  dsimp only
  have hx := hfirst (startLoc / 64) (Nat.le_refl _)
  rcases Nat.lt_trichotomy j (startLoc / 64) with hlt | heq | hgt
  · split <;> simp only [getD_set, length_set, hlen, hm, hfirst j (Nat.le_of_lt hlt)] <;> grind
  · split <;> simp only [getD_set, length_set, hlen, hm] <;> grind
  rw [if_pos (show startLoc / 64 < m - 1 by omega)]
  simp only [getD_set, length_set, hlen, hm]
  by_cases h1 : j = startLoc / 64 + 1
  · grind
  · grind

/-- The bits from `startLoc` on move right by `s`, the others stay. -/
theorem bitAt_shiftHeaderBits (hm : ws.length = m)
    (hs : s ≤ 64) (hstart : startLoc / 64 < m) (hend : (numOfBits - 1) / 64 < m)
    (hclean : ∀ i, numOfBits ≤ i → bitAt ws i = false) (hi : i < 64 * m) :
    bitAt (shiftHeaderBits ws numOfBits m startLoc s) i =
      if i < startLoc then bitAt ws i else if i < startLoc + s then false else bitAt ws
      (i - s) := by
  have hr := Nat.mod_lt i (show 0 < 64 by decide)
  have hq := Nat.mod_lt startLoc (show 0 < 64 by decide)
  unfold bitAt
  rw [getD_shiftHeaderBits hm hstart hend hclean (by omega)]
  rcases Nat.lt_trichotomy (i / 64) (startLoc / 64) with hlt | heq | hgt
  · rw [if_pos hlt, if_pos (by omega)]
  · rw [if_neg (by omega), if_pos heq, getMsbD_or, getMsbD_keep _ hr, getMsbD_shiftRight _ _ _ hr,
      getMsbD_low _ (by omega), heq]
    by_cases h1 : i < startLoc
    · rw [if_pos h1, decide_eq_true (show i % 64 < startLoc % 64 by omega), Bool.true_and,
        decide_eq_false (show ¬ startLoc % 64 ≤ _ by split <;> omega)]
      simp
    rw [if_neg h1, decide_eq_false (show ¬ i % 64 < startLoc % 64 by omega)]
    by_cases h2 : i < startLoc + s
    · rw [if_pos h2]
      by_cases hf : (if 64 - startLoc % 64 < s then 64 - startLoc % 64 else s) ≤ i % 64
      · have hlow : ¬ startLoc % 64 ≤
            i % 64 - (if 64 - startLoc % 64 < s then 64 - startLoc % 64 else s) := by
          revert hf
          split <;> omega
        simp [hlow]
      · simp [hf]
    · rw [if_neg h2, if_neg (by omega), decide_eq_true (by omega), decide_eq_true (by omega),
        show (i - s) / 64 = startLoc / 64 by omega, show (i - s) % 64 = i % 64 - s by omega]
      simp
  · rw [if_neg (by omega), if_neg (by omega), getMsbD_or, getMsbD_shiftRight _ _ _ hr,
      if_neg (show ¬ i < startLoc by omega)]
    -- from `s` on the bits come from the word itself, before that from the word before
    by_cases hin : s ≤ i % 64
    · rw [decide_eq_true hin, if_neg (show ¬ i < startLoc + s by omega),
        show (i - s) / 64 = i / 64 by omega, show (i - s) % 64 = i % 64 - s by omega, Bool.true_and]
      by_cases h1 : i / 64 = startLoc / 64 + 1
      · rw [if_pos h1, getMsbD_carry _ hs hq hr, decide_eq_false (show ¬ i % 64 < s by omega)]
        simp
      · rw [if_neg h1, getMsbD_shiftLeft, getMsbD_of_ge _ (i % 64 + (64 - s)) (by omega),
          Bool.or_false]
    · rw [decide_eq_false hin, Bool.false_and, Bool.false_or]
      by_cases h1 : i / 64 = startLoc / 64 + 1
      · rw [if_pos h1, getMsbD_carry _ hs hq hr, decide_eq_true (show i % 64 < s by omega),
          Bool.true_and]
        by_cases h2 : i < startLoc + s
        · rw [if_pos h2, decide_eq_false (by omega), Bool.false_and]
        · rw [if_neg h2, decide_eq_true (by omega), Bool.true_and,
            show (i - s) / 64 = startLoc / 64 by omega,
            show (i - s) % 64 = i % 64 + 64 - s by omega]
      · rw [if_neg h1, if_neg (by omega), getMsbD_shiftLeft,
          show (i - s) / 64 = i / 64 - 1 by omega, show (i - s) % 64 = i % 64 + (64 - s) by omega]

end PolemoDB.Bitmap
