import PolemoDB.Bitmap.InsertNewwords

/-!
# Which insertions `insert_newwords` can do in C

A shift of a 64-bit word by 64 has no result in C. `insert_newwords` is written for at most
`BM_HRL_WORD_SIZE` new words, and `shift_header_bits` shifts by their number and by 64 minus their
number.

* `shiftHeaderBitsC`, `insertNewwordsC` — the code with such shifts, `none` if there is no result.
* `insertNewwords_splices_iff` — the insertions that are done: all with 1 to 63 new words, and a few
  others.
-/

namespace PolemoDB.Bitmap

open PolemoDB.Lib Option List

/-! ## The code -/

/-- `word << n` on 64-bit words. -/
def shiftLeftC (word : BM_HRL_WORD) (n : Nat) : Option BM_HRL_WORD :=
  if n < 64 then some (word <<< n) else none

/-- `word >> n` on 64-bit words. -/
def shiftRightC (word : BM_HRL_WORD) (n : Nat) : Option BM_HRL_WORD :=
  if n < 64 then some (word >>> n) else none

/-- One round of the loop of `shift_header_bits`. -/
def shiftStepC (maxNumOfWords numOfShiftingBits : Nat) (words : List BM_HRL_WORD) (wordNo : Nat) :
    Option (List BM_HRL_WORD) := do
  let tmpWord ← shiftLeftC (words.getD wordNo 0) (64 - numOfShiftingBits)
  let word ← shiftRightC (words.getD wordNo 0) numOfShiftingBits
  let words := words.set wordNo word
  some (if wordNo < maxNumOfWords - 1 then words.set (wordNo + 1)
    (words.getD (wordNo + 1) 0 ||| tmpWord)
    else words)

/-- The loop of `shift_header_bits`, from word `startWordNo + n` down to the one after
`startWordNo`. -/
def shiftLoopC (maxNumOfWords numOfShiftingBits startWordNo : Nat) :
    Nat → List BM_HRL_WORD → Option (List BM_HRL_WORD)
  | 0, words => some words
  | n + 1, words => do
    let words ← shiftStepC maxNumOfWords numOfShiftingBits words (startWordNo + n + 1)
    shiftLoopC maxNumOfWords numOfShiftingBits startWordNo n words

/-- The bits of a word before position `r`. -/
def keepBitsC (word : BM_HRL_WORD) (r : Nat) : Option BM_HRL_WORD :=
  if r > 0 then do
    let high ← shiftRightC word (64 - r)
    shiftLeftC high (64 - r)
  else some 0

/-- The bits that go to the word behind the first one. -/
def carryBitsC (words : List BM_HRL_WORD) (maxNumOfWords startWordNo : Nat) (tmpWord : BM_HRL_WORD)
    (numOfShiftingBits numOfFinalShiftingBits : Nat) : Option (List BM_HRL_WORD) :=
  if startWordNo < maxNumOfWords - 1 then do
    let high ← shiftLeftC tmpWord (64 - numOfFinalShiftingBits)
    let tmpWord ← shiftRightC high (numOfShiftingBits - numOfFinalShiftingBits)
    some (words.set (startWordNo + 1) (words.getD (startWordNo + 1) 0 ||| tmpWord))
  else some words

/-- `shift_header_bits`. -/
def shiftHeaderBitsC (words : List BM_HRL_WORD)
    (numOfBits maxNumOfWords startLoc numOfShiftingBits : Nat) : Option (List BM_HRL_WORD) := do
  let startWordNo := startLoc / 64
  let endWordNo := (numOfBits - 1) / 64
  let words ← shiftLoopC maxNumOfWords numOfShiftingBits startWordNo (endWordNo - startWordNo) words
  let r := startLoc % 64
  let high ← shiftLeftC (words.getD startWordNo 0) r
  let tmpWord ← shiftRightC high r
  let kept ← keepBitsC (words.getD startWordNo 0) r
  let words := words.set startWordNo kept
  let numOfFinalShiftingBits := if 64 - r < numOfShiftingBits then 64 - r else numOfShiftingBits
  let low ← shiftRightC tmpWord numOfFinalShiftingBits
  let words := words.set startWordNo (words.getD startWordNo 0 ||| low)
  carryBitsC words maxNumOfWords startWordNo tmpWord numOfShiftingBits numOfFinalShiftingBits

/-- `insert_newwords`; the results are `words` and `words_left`. -/
def insertNewwordsC (words : BMTIDBuffer) (insertPos : Nat) (newWords wordsLeft : BMTIDBuffer) :
    Option (BMTIDBuffer × BMTIDBuffer) :=
  let newCount := newWords.curword
  let newCwords := newWords.cwords.take newCount
  let newHwords := newWords.hwords.take (calcHWords newCount)
  let left := { wordsLeft with curword := 0 }
  if words.curword = 0 then
    some ({ words with
        cwords := memcpyAt words.cwords 0 newCwords
        hwords := memcpyAt words.hwords 0 newHwords
        curword := newCount }, left)
  else if insertPos = words.numCwords then
    some (words, { left with
        cwords := memcpyAt left.cwords 0 newCwords
        hwords := memcpyAt left.hwords 0 newHwords
        curword := newCount })
  else do
    let left := { left with
      curword := words.curword + newCount - words.numCwords
      hwords := replicate BM_NUM_OF_HEADER_WORDS 0 }
    let (words, left) := moveLoop insertPos newCount words.curword (words, left)
    let (words, left) := (range newCount).foldl (placeStep insertPos newWords) (words, left)
    let hwords ←
      shiftHeaderBitsC words.hwords words.curword BM_NUM_OF_HEADER_WORDS insertPos newCount
    let hwords :=
      (range newCount).foldl (headerStep insertPos words.numCwords newWords.hwords) hwords
    some ({ words with hwords := hwords, curword := words.curword + (newCount - left.curword) },
      left)

/-! ## When the shifts have a result -/

/-- No shift of `shift_header_bits` is by 64. -/
def ShiftDefined (numOfBits maxNumOfWords startLoc numOfShiftingBits : Nat) : Prop :=
  (numOfShiftingBits < 64 ∨ startLoc % 64 ≠ 0 ∧ (numOfBits - 1) / 64 ≤ startLoc / 64) ∧
    (0 < numOfShiftingBits ∨ (numOfBits - 1) / 64 ≤ startLoc / 64 ∧
    maxNumOfWords - 1 ≤ startLoc / 64)

instance (numOfBits maxNumOfWords startLoc numOfShiftingBits : Nat) :
    Decidable (ShiftDefined numOfBits maxNumOfWords startLoc numOfShiftingBits) :=
  inferInstanceAs (Decidable ((_ ∨ _ ∧ _) ∧ (_ ∨ _ ∧ _)))

variable {n s : Nat} (word : BM_HRL_WORD) (m : Nat)

theorem shiftLeftC_of_lt (h : n < 64) : shiftLeftC word n = some (word <<< n) := if_pos h

theorem shiftRightC_of_lt (h : n < 64) : shiftRightC word n = some (word >>> n) :=
  if_pos h

theorem shiftLeftC_of_ge (h : 64 ≤ n) : shiftLeftC word n = none :=
  if_neg (by omega)

theorem shiftRightC_of_ge (h : 64 ≤ n) : shiftRightC word n = none :=
  if_neg (by omega)

theorem shiftStepC_eq (ws : List BM_HRL_WORD) (no : Nat) (h0 : 0 < s) (h64 : s < 64) :
    shiftStepC m s ws no = some (shiftStep m s ws no) := by
  unfold shiftStepC shiftStep
  rw [shiftLeftC_of_lt _ (by omega), shiftRightC_of_lt _ h64]
  rfl

theorem shiftStepC_none (ws : List BM_HRL_WORD) (no : Nat) (h : s = 0 ∨ 64 ≤ s) :
    shiftStepC m s ws no = none := by
  unfold shiftStepC
  rcases h with rfl | h
  · rfl
  · rw [shiftLeftC_of_lt _ (by omega), shiftRightC_of_ge _ h]
    rfl

theorem shiftLoopC_eq (a n : Nat) (ws : List BM_HRL_WORD) (h : n = 0 ∨ 0 < s ∧ s < 64) :
    shiftLoopC m s a n ws = some (shiftLoop m s a n ws) := by
  induction n generalizing ws with
  | zero => rfl
  | succ n ih =>
    obtain ⟨h0, h64⟩ : 0 < s ∧ s < 64 := by omega
    unfold shiftLoopC shiftLoop
    rw [shiftStepC_eq m ws _ h0 h64]
    exact ih _ (by omega)

theorem shiftLoopC_none (a : Nat) (ws : List BM_HRL_WORD) (hn : 0 < n)
    (h : s = 0 ∨ 64 ≤ s) : shiftLoopC m s a n ws = none := by
  cases n with
  | zero => omega
  | succ n =>
    unfold shiftLoopC
    rw [shiftStepC_none m ws _ h]
    rfl

theorem keepBitsC_eq {r : Nat} (hr : r < 64) :
    keepBitsC word r = some (if r > 0 then (word >>> (64 - r)) <<< (64 - r) else 0) := by
  unfold keepBitsC
  by_cases h0 : r > 0
  · rw [if_pos h0, if_pos h0, shiftRightC_of_lt _ (by omega)]
    exact shiftLeftC_of_lt _ (by omega)
  · rw [if_neg h0, if_neg h0]

variable {m a used : Nat} {fills : List Nat} (ws : List BM_HRL_WORD)

theorem carryBitsC_eq (tmpWord : BM_HRL_WORD) {f : Nat} (hs : s ≤ 64)
    (hf : f = 0 → s = 0) (h : m - 1 ≤ a ∨ 0 < s) :
    carryBitsC ws m a tmpWord s f = some (if a < m - 1 then
      ws.set (a + 1) (ws.getD (a + 1) 0 ||| ((tmpWord <<< (64 - f)) >>> (s - f))) else ws) := by
  unfold carryBitsC
  by_cases hlast : a < m - 1
  · rw [if_pos hlast, if_pos hlast, shiftLeftC_of_lt _ (by omega)]
    dsimp only [bind_eq_bind, bind_some]
    rw [shiftRightC_of_lt _ (by omega)]
    rfl
  · rw [if_neg hlast, if_neg hlast]

theorem carryBitsC_none (tmpWord : BM_HRL_WORD) (s : Nat) (h : a < m - 1) :
    carryBitsC ws m a tmpWord s 0 = none := by
  unfold carryBitsC
  rw [if_pos h, shiftLeftC_of_ge _ (by omega)]
  rfl

/-- The shifts of `shift_header_bits` have a result exactly if none is by 64. -/
theorem shiftHeaderBitsC_eq (numOfBits m startLoc : Nat) (hs : s ≤ 64) :
    shiftHeaderBitsC ws numOfBits m startLoc s =
      if ShiftDefined numOfBits m startLoc s then some (shiftHeaderBits ws numOfBits m startLoc s)
      else none := by
  have hr := Nat.mod_lt startLoc (show 0 < 64 by decide)
  unfold shiftHeaderBitsC ShiftDefined
  dsimp only
  by_cases hloop : (numOfBits - 1) / 64 - startLoc / 64 = 0 ∨ 0 < s ∧ s < 64
  · unfold shiftHeaderBits
    rw [shiftLoopC_eq m _ _ ws hloop]
    dsimp only [bind_eq_bind, bind_some]
    rw [shiftLeftC_of_lt _ hr]
    dsimp only [bind_some]
    rw [shiftRightC_of_lt _ hr]
    rw [keepBitsC_eq _ hr]
    dsimp only [bind_some]
    -- the number of bits that the first word is shifted by
    obtain ⟨f, hf⟩ : ∃ f, (if 64 - startLoc % 64 < s then 64 - startLoc % 64 else s) = f := ⟨_, rfl⟩
    have hf0 : f = 0 ↔ s = 0 := by
      rw [← hf]
      split <;> omega
    have hf64 : f < 64 ↔ s < 64 ∨ startLoc % 64 ≠ 0 := by
      rw [← hf]
      split <;> omega
    rw [hf]
    by_cases hfinal : f < 64
    · rw [shiftRightC_of_lt _ hfinal]
      dsimp only [bind_some]
      by_cases hcarry : m - 1 ≤ startLoc / 64 ∨ 0 < s
      · rw [carryBitsC_eq _ _ hs hf0.1 hcarry]
        exact (if_pos (by omega)).symm
      · obtain rfl : f = 0 := by omega
        rw [carryBitsC_none _ _ _ (by omega)]
        exact (if_neg (by omega)).symm
    · rw [shiftRightC_of_ge _ (by omega)]
      exact (if_neg (by omega)).symm
  · rw [shiftLoopC_none m _ ws (by omega) (by omega)]
    exact (if_neg (by omega)).symm

/-! ## When an insertion is done -/

/-- The sizes with which `insert_newwords` makes no shift by 64: the words are only copied, or the
number of new words is neither zero nor 64, or the header bits to shift are in one word. -/
def InsertDefined (words : BMTIDBuffer) (insertPos : Nat) (newWords : BMTIDBuffer) : Prop :=
  words.curword = 0 ∨ insertPos = words.numCwords ∨
    ShiftDefined words.curword BM_NUM_OF_HEADER_WORDS insertPos newWords.curword

instance (words : BMTIDBuffer) (insertPos : Nat) (newWords : BMTIDBuffer) :
    Decidable (InsertDefined words insertPos newWords) :=
  inferInstanceAs (Decidable (_ ∨ _ ∨ ShiftDefined _ _ _ _))

variable {words newWords left : BMTIDBuffer} {insertPos : Nat}

/-- `insert_newwords` does what `insertNewwords` says, or makes a shift by 64. -/
theorem insertNewwordsC_eq (h : InsertPre words insertPos newWords left) :
    insertNewwordsC words insertPos newWords left =
      if InsertDefined words insertPos newWords then some
      (insertNewwords words insertPos newWords left) else none := by
  unfold insertNewwordsC insertNewwords
  by_cases h0 : words.curword = 0
  · rw [if_pos h0, if_pos h0]
    exact (if_pos (.inl h0)).symm
  by_cases hfull : insertPos = words.numCwords
  · rw [if_neg h0, if_neg h0, if_pos hfull, if_pos hfull]
    exact (if_pos (.inr (.inl hfull))).symm
  rw [if_neg h0, if_neg h0, if_neg hfull, if_neg hfull]
  -- the two loops before the shift keep the number of words
  obtain ⟨words₁, left₁, words₂, left₂, hmove, hplace, hm, hp⟩ := h.loops
  simp only [hmove, hplace]
  rw [shiftHeaderBitsC_eq _ _ _ _ h.newSmall, hp.curword, hm.curword]
  by_cases hshift : ShiftDefined words.curword BM_NUM_OF_HEADER_WORDS insertPos newWords.curword
  · rw [if_pos hshift]
    exact (if_pos (.inr (.inr hshift))).symm
  · rw [if_neg hshift]
    exact (if_neg fun hc => (hc.resolve_left h0).elim hfull hshift).symm

/-- The two results hold the words with the new ones spliced in, cut after as many words as fit, and
no header bit is set behind the words. -/
structure Spliced (words : BMTIDBuffer) (insertPos : Nat) (newWords words' left' : BMTIDBuffer) :
    Prop where
  fits : words'.words = (splice words insertPos newWords).take BM_NUM_OF_HRL_WORDS_PER_PAGE
  left : left'.words = (splice words insertPos newWords).drop BM_NUM_OF_HRL_WORDS_PER_PAGE
  clean : ∀ i, words'.curword ≤ i → isFillWord words'.hwords i = false
  leftClean : ∀ i, left'.curword ≤ i → isFillWord left'.hwords i = false

/-- **The new words are spliced in exactly if no shift is by 64**; so always with 1 to 63 new words.
-/
theorem insertNewwords_splices_iff (h : InsertPre words insertPos newWords left) :
    (∃ words' left', insertNewwordsC words insertPos newWords left = some (words', left') ∧
      Spliced words insertPos newWords words' left') ↔ InsertDefined words insertPos newWords := by
  rw [insertNewwordsC_eq h]
  constructor
  · rintro ⟨words', left', heq, -⟩
    by_contra hnot
    rw [if_neg hnot] at heq
    cases heq
  · intro hdef
    have hpost := insertNewwords_spec h
    obtain ⟨hwords, hleft⟩ := hpost.words_eq h.pos
    exact ⟨_, _, if_pos hdef, hwords, hleft, hpost.clean, hpost.leftClean⟩

/-- A page of `used` words, those with a number in `fills` being fill words. -/
def pageOf (used : Nat) (fills : List Nat) : BMTIDBuffer := { BMTIDBuffer.zero with
    curword := used
    numCwords := BM_NUM_OF_HRL_WORDS_PER_PAGE
    hwords := fills.foldl setHeaderBit BMTIDBuffer.zero.hwords
    cwords := replicate BM_NUM_OF_HRL_WORDS_PER_PAGE 1 }

/-- `n` literal words to insert. -/
def literals (n : Nat) : BMTIDBuffer :=
  { BMTIDBuffer.zero with curword := n, numCwords := 64, cwords := replicate 64 1 }

theorem setHeaderBits_clean (hused : used ≤ BM_NUM_OF_HRL_WORDS_PER_PAGE)
    (hfills : ∀ k ∈ fills, k < used) {hwords : List BM_HRL_WORD}
    (hlen : hwords.length = BM_NUM_OF_HEADER_WORDS)
    (hclean : ∀ i, used ≤ i → isFillWord hwords i = false) :
    (fills.foldl setHeaderBit hwords).length = BM_NUM_OF_HEADER_WORDS ∧
      ∀ i, used ≤ i → isFillWord (fills.foldl setHeaderBit hwords) i = false := by
  obtain ⟨hcap, hhead⟩ := page_sizes
  induction fills generalizing hwords with
  | nil => exact ⟨hlen, hclean⟩
  | cons k fills ih =>
    have hk := hfills k mem_cons_self
    refine ih (fun j hj => hfills j (mem_cons_of_mem _ hj)) (by simp [setHeaderBit, hlen]) fun i
      hi => ?_
    rw [isFillWord_setHeaderBit (by omega), hclean i hi, Bool.false_or]
    exact decide_eq_false (by omega)

theorem pageOf_pre (hused : used ≤ BM_NUM_OF_HRL_WORDS_PER_PAGE) (hn : n ≤ 64)
    (hfills : ∀ k ∈ fills, k < used) {pos : Nat} (hpos : pos ≤ used) :
    InsertPre (pageOf used fills) pos (literals n) (literals 0) := by
  have key := setHeaderBits_clean hused hfills zero_ok.hwords fun i _ => isFillWord_zeros _ i
  refine ⟨⟨rfl, length_replicate, key.1, hused, ?_, zero_ok.hwords⟩, hpos, key.2, hn, ?_,
    zero_ok.hwords, fun i _ => isFillWord_zeros _ i, isFillWord_zeros _⟩
  · show used + n ≤ BM_NUM_OF_HRL_WORDS_PER_PAGE + (replicate 64 (1 : BM_HRL_WORD)).length
    rw [length_replicate]
    omega
  · show n ≤ (replicate 64 (1 : BM_HRL_WORD)).length
    exact hn

theorem insertNewwords_splices_three : ∃ words' left',
    insertNewwordsC (pageOf 3968 [0, 100, 3967]) 100 (literals 3) (literals 0) =
      some (words', left') ∧ Spliced (pageOf 3968 [0, 100, 3967]) 100 (literals 3) words' left' :=
  (insertNewwords_splices_iff (pageOf_pre (by decide) (by decide) (by decide) (by decide))).2
    (by decide)

/-- With 64 new words in front of a page of 65 words, the second header word is shifted by 64. -/
theorem insertNewwords_shift_by_64 : InsertPre (pageOf 65 [64]) 0 (literals 64) (literals 0) ∧
      insertNewwordsC (pageOf 65 [64]) 0 (literals 64) (literals 0) = none := by
  have hpre : InsertPre (pageOf 65 [64]) 0 (literals 64) (literals 0) :=
    pageOf_pre (by decide) (by decide) (by decide) (by decide)
  refine ⟨hpre, ?_⟩
  rw [insertNewwordsC_eq hpre, if_neg (by decide)]

end PolemoDB.Bitmap
