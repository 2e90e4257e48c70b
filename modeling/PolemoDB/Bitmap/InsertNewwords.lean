import PolemoDB.Bitmap.Buffer

/-!
# Inserting words into an array of words (`insert_newwords`)

The new words go to a given position, the words behind it move right, and the words that the array
has no room for are left in a third buffer.

* `insertNewwords_spec`, `InsertPost.words_eq` — the words of the array and those left over,
  together, are the old words with the new ones spliced in.
-/

namespace PolemoDB.Bitmap

open PolemoDB.Lib List BMTIDBuffer

/-! ## The code -/

/-- One round of the walk back from the last word; the first buffer is the array, the second one
takes the words that do not fit. -/
def moveStep (newCount : Nat) (s : BMTIDBuffer × BMTIDBuffer) (wordNo : Nat) :
    BMTIDBuffer × BMTIDBuffer :=
  let (words, left) := s
  if wordNo + newCount ≥ words.numCwords then
    let n := wordNo + newCount - words.numCwords
    let left := { left with cwords := left.cwords.set n (words.cwords.getD wordNo 0) }
    if isFillWord words.hwords wordNo then
      ({ words with hwords := clearHeaderBit words.hwords wordNo },
        { left with hwords := left.hwords.set 0 (left.hwords.getD 0 0 ||| wordnoGetHeaderBit n) })
    else (words, left)
  else ({ words with cwords := words.cwords.set (wordNo + newCount) (words.cwords.getD wordNo 0) },
    left)

/-- The walk back from word `n - 1` to word `insertPos`. -/
def moveLoop (insertPos newCount : Nat) : Nat → BMTIDBuffer × BMTIDBuffer →
    BMTIDBuffer × BMTIDBuffer
  | 0, s => s
  | n + 1, s => if n ≥ insertPos then moveLoop insertPos newCount n (moveStep newCount s n) else s

def placeStep (insertPos : Nat) (newWords : BMTIDBuffer) (s : BMTIDBuffer × BMTIDBuffer)
    (wordNo : Nat) : BMTIDBuffer × BMTIDBuffer :=
  let (words, left) := s
  if insertPos + wordNo ≥ words.numCwords then
    let n := insertPos + wordNo - words.numCwords
    let left := { left with cwords := left.cwords.set n (newWords.cwords.getD wordNo 0) }
    if isFillWord newWords.hwords wordNo then
      (words, { left with
        hwords := left.hwords.set 0 (left.hwords.getD 0 0 ||| wordnoGetHeaderBit n) })
    else (words, left)
  else ({ words with
    cwords := words.cwords.set (insertPos + wordNo) (newWords.cwords.getD wordNo 0) }, left)

/-- One round of the loop that sets the header bits of the new words. -/
def headerStep (insertPos numCwords : Nat) (newHwords hwords : List BM_HRL_WORD) (wordNo : Nat) :
    List BM_HRL_WORD :=
  if insertPos + wordNo < numCwords ∧ isFillWord newHwords wordNo = true then
    setHeaderBit hwords (insertPos + wordNo)
  else hwords

/-- `insert_newwords`; the results are `words` and `words_left`. -/
def insertNewwords (words : BMTIDBuffer) (insertPos : Nat) (newWords wordsLeft : BMTIDBuffer) :
    BMTIDBuffer × BMTIDBuffer :=
  let newCount := newWords.curword
  let newCwords := newWords.cwords.take newCount
  let newHwords := newWords.hwords.take (calcHWords newCount)
  let left := { wordsLeft with curword := 0 }
  if words.curword = 0 then
    ({ words with
        cwords := memcpyAt words.cwords 0 newCwords
        hwords := memcpyAt words.hwords 0 newHwords
        curword := newCount }, left)
  else if insertPos = words.numCwords then
    (words, { left with
        cwords := memcpyAt left.cwords 0 newCwords
        hwords := memcpyAt left.hwords 0 newHwords
        curword := newCount })
  else
    let left := { left with
      curword := words.curword + newCount - words.numCwords
      hwords := List.replicate BM_NUM_OF_HEADER_WORDS 0 }
    let (words, left) := moveLoop insertPos newCount words.curword (words, left)
    let (words, left) := (List.range newCount).foldl (placeStep insertPos newWords) (words, left)
    let hwords :=
      shiftHeaderBits words.hwords words.curword BM_NUM_OF_HEADER_WORDS insertPos newCount
    let hwords :=
      (List.range newCount).foldl (headerStep insertPos words.numCwords newWords.hwords) hwords
    ({ words with hwords := hwords, curword := words.curword + (newCount - left.curword) }, left)

/-! ## What `insert_newwords` does -/

/-- The sizes of the two buffers that `insert_newwords` changes: an array as large as a page and
room for the words that do not fit. -/
structure InsertSizes (newCount : Nat) (words left : BMTIDBuffer) : Prop where
  numCwords : words.numCwords = BM_NUM_OF_HRL_WORDS_PER_PAGE
  cwords : words.cwords.length = BM_NUM_OF_HRL_WORDS_PER_PAGE
  hwords : words.hwords.length = BM_NUM_OF_HEADER_WORDS
  curword : words.curword ≤ BM_NUM_OF_HRL_WORDS_PER_PAGE
  leftCwords : words.curword + newCount ≤ BM_NUM_OF_HRL_WORDS_PER_PAGE + left.cwords.length
  leftHwords : left.hwords.length = BM_NUM_OF_HEADER_WORDS

/-- The buffer for the words that do not fit, before the first of them is moved. -/
abbrev BMTIDBuffer.emptied (left words newWords : BMTIDBuffer) : BMTIDBuffer := { left with
  curword := words.curword + newWords.curword - words.numCwords
  hwords := replicate BM_NUM_OF_HEADER_WORDS 0 }

/-- What `moveLoop` does to the two buffers, word by word, when it starts from word `n - 1`. -/
structure Moved (insertPos newCount n : Nat) (words left words' left' : BMTIDBuffer) : Prop where
  sizes : InsertSizes newCount words' left'
  curword : words'.curword = words.curword
  leftCurword : left'.curword = left.curword
  cword : ∀ j, words'.cwords.getD j 0 =
    if insertPos + newCount ≤ j ∧ j < n + newCount ∧ j < BM_NUM_OF_HRL_WORDS_PER_PAGE then
      words.cwords.getD (j - newCount) 0 else words.cwords.getD j 0
  fill : ∀ j, isFillWord words'.hwords j = (isFillWord words.hwords j &&
    !decide (insertPos ≤ j ∧ j < n ∧ BM_NUM_OF_HRL_WORDS_PER_PAGE ≤ j + newCount))
  leftCword : ∀ j, left'.cwords.getD j 0 =
    if insertPos + newCount ≤ j + BM_NUM_OF_HRL_WORDS_PER_PAGE ∧
        j + BM_NUM_OF_HRL_WORDS_PER_PAGE < n + newCount then
      words.cwords.getD (j + BM_NUM_OF_HRL_WORDS_PER_PAGE - newCount) 0 else left.cwords.getD j 0
  leftFill : ∀ j, isFillWord left'.hwords j = (isFillWord left.hwords j ||
    (decide (insertPos + newCount ≤ j + BM_NUM_OF_HRL_WORDS_PER_PAGE ∧
        j + BM_NUM_OF_HRL_WORDS_PER_PAGE < n + newCount) &&
      isFillWord words.hwords (j + BM_NUM_OF_HRL_WORDS_PER_PAGE - newCount)))

variable {words left newWords : BMTIDBuffer} {insertPos : Nat}

theorem moveStep_moved {newCount n : Nat} (hs : InsertSizes newCount words left)
    (hn : n < words.curword) (hnew : newCount ≤ 64) :
    Moved n newCount (n + 1) words left
      (moveStep newCount (words, left) n).1 (moveStep newCount (words, left) n).2 := by
  obtain ⟨hcap, hhead⟩ := page_sizes
  have hcur := hs.curword
  have hleft := hs.leftCwords
  unfold moveStep
  dsimp only
  rw [hs.numCwords]
  by_cases hover : n + newCount ≥ BM_NUM_OF_HRL_WORDS_PER_PAGE
  · rw [if_pos hover]
    by_cases hfill : isFillWord words.hwords n = true
    · rw [if_pos hfill]
      refine ⟨⟨rfl, hs.cwords, ?_, hcur, ?_, ?_⟩, rfl, rfl, ?_, ?_, ?_, ?_⟩
      · simp [clearHeaderBit, hs.hwords]
      · simpa using hleft
      · simp [hs.leftHwords]
      · grind
      · intro j
        rw [isFillWord_clearHeaderBit (by rw [hs.hwords]; omega)]
        grind
      · grind
      · intro j
        rw [isFillWord_setFirst (by omega) (by rw [hs.leftHwords]; omega)]
        grind
    · rw [if_neg hfill]
      refine ⟨{ hs with curword := hcur, leftCwords := ?_ }, rfl, rfl, ?_, ?_, ?_, ?_⟩
      · simpa using hleft
      all_goals grind
  · rw [if_neg hover]
    refine ⟨⟨rfl, ?_, hs.hwords, hcur, hleft, hs.leftHwords⟩, rfl, rfl, ?_, ?_, ?_, ?_⟩
    · simp [hs.cwords]
    · intro j
      rw [getD_set, hs.cwords]
      grind
    all_goals grind

theorem moveLoop_moved (insertPos : Nat) {newCount : Nat} (hnew : newCount ≤ 64) (n : Nat)
    (hs : InsertSizes newCount words left) (hn : n ≤ words.curword) :
    Moved insertPos newCount n words left
      (moveLoop insertPos newCount n (words, left)).1
      (moveLoop insertPos newCount n (words, left)).2 := by
  induction n generalizing words left with
  | zero => refine ⟨hs, rfl, rfl, ?_, ?_, ?_, ?_⟩ <;> intro j <;> simp [moveLoop] <;> omega
  | succ n ih =>
    unfold moveLoop
    by_cases hpos : n ≥ insertPos
    · rw [if_pos hpos]
      have hstep := moveStep_moved hs (Nat.lt_of_succ_le hn) hnew
      generalize hst : moveStep newCount (words, left) n = s at hstep ⊢
      obtain ⟨words₁, left₁⟩ := s
      have hrest := ih hstep.sizes (by rw [hstep.curword]; omega)
      generalize moveLoop insertPos newCount n (words₁, left₁) = s' at hrest ⊢
      refine ⟨hrest.sizes, hrest.curword.trans hstep.curword,
        hrest.leftCurword.trans hstep.leftCurword, fun j => ?_, fun j => ?_, fun j => ?_,
        fun j => ?_⟩
      · grind [hrest.cword j, hstep.cword]
      · grind [hrest.fill j, hstep.fill]
      · grind [hrest.leftCword j, hstep.leftCword, hstep.cword]
      · grind [hrest.leftFill j, hstep.leftFill, hstep.fill]
    · rw [if_neg hpos]
      refine ⟨hs, rfl, rfl, ?_, ?_, ?_, ?_⟩ <;> intro j <;> grind

/-- What the first `n` rounds of the loop that inserts the new words do. -/
structure Placed (insertPos n : Nat) (newWords words left words' left' : BMTIDBuffer) : Prop where
  sizes : InsertSizes newWords.curword words' left'
  curword : words'.curword = words.curword
  leftCurword : left'.curword = left.curword
  hwords : words'.hwords = words.hwords
  cword : ∀ j, words'.cwords.getD j 0 =
    if insertPos ≤ j ∧ j < insertPos + n ∧ j < BM_NUM_OF_HRL_WORDS_PER_PAGE then
      newWords.cwords.getD (j - insertPos) 0 else words.cwords.getD j 0
  leftCword : ∀ j, left'.cwords.getD j 0 =
    if insertPos ≤ j + BM_NUM_OF_HRL_WORDS_PER_PAGE ∧
        j + BM_NUM_OF_HRL_WORDS_PER_PAGE < insertPos + n then
      newWords.cwords.getD (j + BM_NUM_OF_HRL_WORDS_PER_PAGE - insertPos) 0
    else left.cwords.getD j 0
  leftFill : ∀ j, isFillWord left'.hwords j = (isFillWord left.hwords j ||
    (decide (insertPos ≤ j + BM_NUM_OF_HRL_WORDS_PER_PAGE ∧
        j + BM_NUM_OF_HRL_WORDS_PER_PAGE < insertPos + n) &&
      isFillWord newWords.hwords (j + BM_NUM_OF_HRL_WORDS_PER_PAGE - insertPos)))

theorem placeLoop_placed (hs : InsertSizes newWords.curword words left)
    (hnew' : newWords.curword ≤ 64) (hpos : insertPos ≤ words.curword) (n : Nat)
    (hn : n ≤ newWords.curword) : Placed insertPos n newWords words left
      ((List.range n).foldl (placeStep insertPos newWords) (words, left)).1
      ((List.range n).foldl (placeStep insertPos newWords) (words, left)).2 := by
  obtain ⟨hcap, hhead⟩ := page_sizes
  induction n with
  | zero => refine ⟨hs, rfl, rfl, rfl, fun j => ?_, fun j => ?_, fun j => ?_⟩ <;> grind
  | succ n ih =>
    have h := ih (by omega)
    rw [range_succ, foldl_append]
    generalize (range n).foldl (placeStep insertPos newWords) (words, left) = s at h ⊢
    obtain ⟨words₁, left₁⟩ := s
    simp only [foldl_cons, foldl_nil]
    unfold placeStep
    dsimp only
    have hsz := h.sizes
    have hcur := hsz.curword
    have hcur₁ := h.curword
    rw [hsz.numCwords]
    by_cases hover : insertPos + n ≥ BM_NUM_OF_HRL_WORDS_PER_PAGE
    · rw [if_pos hover]
      have hleft := hsz.leftCwords
      by_cases hfill : isFillWord newWords.hwords n = true
      · rw [if_pos hfill]
        refine ⟨⟨hsz.numCwords, hsz.cwords, hsz.hwords, hcur, ?_, ?_⟩, h.curword, h.leftCurword,
          h.hwords, fun j => ?_, fun j => ?_, fun j => ?_⟩
        · simpa using hleft
        · simp [hsz.leftHwords]
        · grind [h.cword j]
        · grind [h.leftCword j]
        · rw [isFillWord_setFirst (by omega) (by rw [hsz.leftHwords]; omega)]
          grind [h.leftFill j]
      · rw [if_neg hfill]
        refine ⟨{ hsz with curword := hcur, leftCwords := ?_ }, h.curword, h.leftCurword,
          h.hwords, fun j => ?_, fun j => ?_, fun j => ?_⟩
        · simpa using hleft
        · grind [h.cword j]
        · grind [h.leftCword j]
        · grind [h.leftFill j]
    · rw [if_neg hover]
      refine ⟨⟨rfl, ?_, hsz.hwords, hcur, hsz.leftCwords, hsz.leftHwords⟩, h.curword, h.leftCurword,
        h.hwords, fun j => ?_, fun j => ?_, fun j => ?_⟩
      · simp [hsz.cwords]
      · rw [getD_set, hsz.cwords]
        grind [h.cword j]
      · grind [h.leftCword j]
      · grind [h.leftFill j]

theorem headerLoop_fill (insertPos : Nat) (newHwords : List BM_HRL_WORD) {hwords : List BM_HRL_WORD}
    (hlen : hwords.length = BM_NUM_OF_HEADER_WORDS) (n : Nat) :
    ((List.range n).foldl (headerStep insertPos BM_NUM_OF_HRL_WORDS_PER_PAGE newHwords)
        hwords).length = BM_NUM_OF_HEADER_WORDS ∧
      ∀ j, isFillWord ((List.range n).foldl
          (headerStep insertPos BM_NUM_OF_HRL_WORDS_PER_PAGE newHwords) hwords) j =
        (isFillWord hwords j ||
          (decide (insertPos ≤ j ∧ j < insertPos + n ∧ j < BM_NUM_OF_HRL_WORDS_PER_PAGE) &&
            isFillWord newHwords (j - insertPos))) := by
  obtain ⟨hcap, hhead⟩ := page_sizes
  induction n with
  | zero => refine ⟨hlen, fun j => ?_⟩; simp; omega
  | succ n ih =>
    obtain ⟨hl, hf⟩ := ih
    rw [range_succ, foldl_append]
    generalize (range n).foldl
      (headerStep insertPos BM_NUM_OF_HRL_WORDS_PER_PAGE newHwords) hwords = ws at hl hf ⊢
    simp only [foldl_cons, foldl_nil]
    unfold headerStep
    split
    · refine ⟨by simp [setHeaderBit, hl], fun j => ?_⟩
      rw [isFillWord_setHeaderBit (by omega), hf]
      grind
    · refine ⟨hl, fun j => ?_⟩
      grind

/-- What `insert_newwords` relies on: header bits behind the last word are zero, and there is room.
-/
structure InsertPre (words : BMTIDBuffer) (insertPos : Nat) (newWords left : BMTIDBuffer) :
    Prop where
  sizes : InsertSizes newWords.curword words left
  pos : insertPos ≤ words.curword
  clean : ∀ i, words.curword ≤ i → isFillWord words.hwords i = false
  newSmall : newWords.curword ≤ 64
  newCwords : newWords.curword ≤ newWords.cwords.length
  newHwords : newWords.hwords.length = BM_NUM_OF_HEADER_WORDS
  newClean : ∀ i, newWords.curword ≤ i → isFillWord newWords.hwords i = false
  leftClean : ∀ i, isFillWord left.hwords i = false

def splice (words : BMTIDBuffer) (insertPos : Nat) (newWords : BMTIDBuffer) : List HrlWord :=
  words.words.take insertPos ++ newWords.words ++ words.words.drop insertPos

/-- Word `j` of them. -/
def spliceAt (words : BMTIDBuffer) (insertPos : Nat) (newWords : BMTIDBuffer) (j : Nat) : HrlWord :=
  if j < insertPos then words.hrl j
  else if j < insertPos + newWords.curword then newWords.hrl (j - insertPos)
  else words.hrl (j - newWords.curword)

theorem getElem?_splice (h : insertPos ≤ words.curword) (j : Nat) :
    (splice words insertPos newWords)[j]? =
      if j < words.curword + newWords.curword then some (spliceAt words insertPos newWords j)
      else none := by
  unfold splice spliceAt BMTIDBuffer.words BMTIDBuffer.hrl
  grind [getElem?_hrlWords, hrlWords_length]

/-- The first part of the spliced words is in the array, the rest is left. -/
structure InsertPost (words : BMTIDBuffer) (insertPos : Nat) (newWords words' left' : BMTIDBuffer) :
    Prop where
  curword : words'.curword = min BM_NUM_OF_HRL_WORDS_PER_PAGE (words.curword + newWords.curword)
  leftCurword : left'.curword = words.curword + newWords.curword - BM_NUM_OF_HRL_WORDS_PER_PAGE
  cwords : words'.cwords.length = BM_NUM_OF_HRL_WORDS_PER_PAGE
  hwords : words'.hwords.length = BM_NUM_OF_HEADER_WORDS
  leftCwords : left'.curword ≤ left'.cwords.length
  leftHwords : left'.hwords.length = BM_NUM_OF_HEADER_WORDS
  hrl : ∀ j, j < words'.curword → words'.hrl j = spliceAt words insertPos newWords j
  leftHrl : ∀ j, j < left'.curword →
    left'.hrl j = spliceAt words insertPos newWords (j + BM_NUM_OF_HRL_WORDS_PER_PAGE)
  clean : ∀ i, words'.curword ≤ i → isFillWord words'.hwords i = false
  leftClean : ∀ i, left'.curword ≤ i → isFillWord left'.hwords i = false

theorem getD_memcpy (mem : List BM_HRL_WORD) {xs : List BM_HRL_WORD} {n : Nat} (hn : n ≤ xs.length)
    (hm : n ≤ mem.length) (i : Nat) :
    (memcpyAt mem 0 (xs.take n)).getD i 0 = if i < n then xs.getD i 0 else mem.getD i 0 := by
  simpa using getD_memcpyAt_slice (show 0 + n ≤ xs.length by omega)
    (show 0 + n ≤ mem.length by omega) (0 : BM_HRL_WORD) i

theorem isFillWord_memcpy (mem xs : List BM_HRL_WORD) (n : Nat) (hx : calcHWords n ≤ xs.length)
    (hm : calcHWords n ≤ mem.length) (hmem : ∀ i, n ≤ i → isFillWord mem i = false)
    (hclean : ∀ i, n ≤ i → isFillWord xs i = false) (i : Nat) :
    isFillWord (memcpyAt mem 0 (xs.take (calcHWords n))) i = isFillWord xs i := by
  have hn : n ≤ 64 * calcHWords n := by
    unfold calcHWords
    split <;> omega
  by_cases h : i / 64 < calcHWords n
  · unfold isFillWord
    rw [getD_memcpy mem hx hm, if_pos h]
  have hi := hmem i (by omega)
  have hxs := hclean i (by omega)
  unfold isFillWord at hi hxs ⊢
  rw [getD_memcpy mem hx hm, if_neg h, hi, hxs]

section Insert

variable {words newWords left : BMTIDBuffer} {insertPos : Nat}

theorem InsertPre.calcHWords_le_one (h : InsertPre words insertPos newWords left) :
    calcHWords newWords.curword ≤ 1 := by
  have := h.newSmall
  unfold calcHWords
  split <;> omega

theorem spliceAt_fill (j : Nat) : (spliceAt words insertPos newWords j).fill =
    if j < insertPos then isFillWord words.hwords j
    else if j < insertPos + newWords.curword then isFillWord newWords.hwords (j - insertPos)
    else isFillWord words.hwords (j - newWords.curword) := by
  unfold spliceAt
  split
  · rfl
  · split <;> rfl

theorem spliceAt_word (j : Nat) : (spliceAt words insertPos newWords j).word =
    if j < insertPos then words.cwords.getD j 0
    else if j < insertPos + newWords.curword then newWords.cwords.getD (j - insertPos) 0
    else words.cwords.getD (j - newWords.curword) 0 := by
  unfold spliceAt
  split
  · rfl
  · split <;> rfl

theorem hrl_ext {buf : BMTIDBuffer} {j : Nat} {x : HrlWord} (hf : isFillWord buf.hwords j = x.fill)
    (hc : buf.cwords.getD j 0 = x.word) : buf.hrl j = x := by
  unfold hrl
  rw [hf, hc]

section Walk

variable {words₁ left₁ words₂ left₂ : BMTIDBuffer}
  (hm : Moved insertPos newWords.curword words.curword words left words₁ left₁)
  (hp : Placed insertPos newWords.curword newWords words₁ left₁ words₂ left₂)

include hm hp

theorem placed_cword {j : Nat} (hj : j < BM_NUM_OF_HRL_WORDS_PER_PAGE)
    (hlt : j < words.curword + newWords.curword) :
    words₂.cwords.getD j 0 = (spliceAt words insertPos newWords j).word := by
  rw [hp.cword, hm.cword, spliceAt_word]
  grind

theorem placed_leftCword (hpos : insertPos ≤ words.curword) {j : Nat}
    (hlt : j + BM_NUM_OF_HRL_WORDS_PER_PAGE < words.curword + newWords.curword) :
    left₂.cwords.getD j 0 =
    (spliceAt words insertPos newWords (j + BM_NUM_OF_HRL_WORDS_PER_PAGE)).word := by
  rw [hp.leftCword, hm.leftCword, spliceAt_word]
  have hcur := hm.sizes.curword
  rw [hm.curword] at hcur
  grind

theorem placed_leftFill (hpos : insertPos ≤ words.curword)
    (hleft : ∀ j, isFillWord left.hwords j = false) {j : Nat}
    (hlt : j + BM_NUM_OF_HRL_WORDS_PER_PAGE < words.curword + newWords.curword) :
    isFillWord left₂.hwords j =
      (spliceAt words insertPos newWords (j + BM_NUM_OF_HRL_WORDS_PER_PAGE)).fill := by
  rw [hp.leftFill, hm.leftFill, hleft, spliceAt_fill]
  have hcur := hm.sizes.curword
  rw [hm.curword] at hcur
  grind

end Walk

section

variable (h : InsertPre words insertPos newWords left)
include h

theorem InsertPre.loops : ∃ words₁ left₁ words₂ left₂,
    moveLoop insertPos newWords.curword words.curword (words, left.emptied words newWords) =
      (words₁, left₁) ∧
    (range newWords.curword).foldl (placeStep insertPos newWords) (words₁, left₁) =
      (words₂, left₂) ∧
    Moved insertPos newWords.curword words.curword words (left.emptied words newWords) words₁
      left₁ ∧
    Placed insertPos newWords.curword newWords words₁ left₁ words₂ left₂ := by
  have hsz : InsertSizes newWords.curword words (left.emptied words newWords) :=
    { h.sizes with leftHwords := length_replicate }
  have hm := moveLoop_moved insertPos h.newSmall words.curword hsz (Nat.le_refl _)
  have hp := placeLoop_placed hm.sizes h.newSmall (hm.curword ▸ h.pos) newWords.curword
    (Nat.le_refl _)
  exact ⟨_, _, _, _, rfl, rfl, hm, hp⟩

theorem insertNewwords_empty (h0 : words.curword = 0) :
    InsertPost words insertPos newWords (insertNewwords words insertPos newWords left).1
      (insertNewwords words insertPos newWords left).2 := by
  obtain ⟨hcap, hhead⟩ := page_sizes
  have hsmall := h.newSmall
  have hpos := h.pos
  have hcalc := h.calcHWords_le_one
  have hfill := isFillWord_memcpy words.hwords newWords.hwords newWords.curword
    (by rw [h.newHwords]; omega) (by rw [h.sizes.hwords]; omega)
    (fun i _ => h.clean i (by omega)) h.newClean
  have hcword := getD_memcpy words.cwords h.newCwords (by rw [h.sizes.cwords]; omega)
  unfold insertNewwords
  rw [if_pos h0]
  refine ⟨?_, ?_, ?_, ?_, Nat.zero_le _, h.sizes.leftHwords, fun j hj => ?_,
    fun j hj => absurd hj (Nat.not_lt_zero _), fun i hi => (hfill i).trans (h.newClean i hi),
    fun i _ => h.leftClean i⟩
  · dsimp only
    omega
  · dsimp only
    omega
  · rw [memcpyAt_length (by simp [h.sizes.cwords]; omega)]
    exact h.sizes.cwords
  · rw [memcpyAt_length (by simp [h.sizes.hwords, h.newHwords])]
    exact h.sizes.hwords
  · have hj : j < newWords.curword := hj
    unfold spliceAt hrl
    rw [if_neg (by omega), if_pos (by omega), hfill, hcword, if_pos hj,
      show j - insertPos = j by omega]

theorem insertNewwords_full (h0 : words.curword ≠ 0) (hfull : insertPos = words.numCwords) :
    InsertPost words insertPos newWords (insertNewwords words insertPos newWords left).1
      (insertNewwords words insertPos newWords left).2 := by
  obtain ⟨hcap, hhead⟩ := page_sizes
  have hpos := h.pos
  have hcur := h.sizes.curword
  have hroom := h.sizes.leftCwords
  have hcalc := h.calcHWords_le_one
  have hend : words.curword = BM_NUM_OF_HRL_WORDS_PER_PAGE := by
    rw [hfull, h.sizes.numCwords] at hpos
    omega
  have hfill := isFillWord_memcpy left.hwords newWords.hwords newWords.curword
    (by rw [h.newHwords]; omega) (by rw [h.sizes.leftHwords]; omega)
    (fun i _ => h.leftClean i) h.newClean
  have hcword := getD_memcpy left.cwords h.newCwords (by omega)
  rw [h.sizes.numCwords] at hfull
  unfold insertNewwords
  rw [if_neg h0, if_pos (by rw [h.sizes.numCwords]; exact hfull)]
  refine ⟨?_, ?_, h.sizes.cwords, h.sizes.hwords, ?_, ?_, fun j hj => ?_, fun j hj => ?_, h.clean,
    fun i hi => (hfill i).trans (h.newClean i hi)⟩
  · dsimp only
    omega
  · dsimp only
    omega
  · rw [memcpyAt_length (by simp; omega)]
    dsimp only
    omega
  · rw [memcpyAt_length (by simp [h.sizes.leftHwords, h.newHwords])]
    exact h.sizes.leftHwords
  · unfold spliceAt
    rw [if_pos (by dsimp only at hj; omega)]
  · have hj : j < newWords.curword := hj
    unfold spliceAt hrl
    rw [if_neg (by omega), if_pos (by omega), hfill, hcword, if_pos hj,
      show j + BM_NUM_OF_HRL_WORDS_PER_PAGE - insertPos = j by omega]

theorem insertNewwords_move (h0 : words.curword ≠ 0) (hfull : insertPos ≠ words.numCwords) :
    InsertPost words insertPos newWords (insertNewwords words insertPos newWords left).1
      (insertNewwords words insertPos newWords left).2 := by
  obtain ⟨hcap, hhead⟩ := page_sizes
  have hpos := h.pos
  have hcur := h.sizes.curword
  have hsmall := h.newSmall
  have hclean := h.clean
  have hfull' := hfull
  rw [h.sizes.numCwords] at hfull'
  unfold insertNewwords
  rw [if_neg h0, if_neg hfull]
  obtain ⟨words₁, left₁, words₂, left₂, hmove, hplace, hm, hp⟩ := h.loops
  simp only [hmove, hplace]
  have hleft₀ : ∀ j, isFillWord (left.emptied words newWords).hwords j = false := by
    intro j
    rw [isFillWord_eq]
    exact bitAt_replicate_zero _ _
  have hcur₂ : words₂.curword = words.curword := hp.curword.trans hm.curword
  have hleft₂ : left₂.curword =
      words.curword + newWords.curword - BM_NUM_OF_HRL_WORDS_PER_PAGE := by
    rw [hp.leftCurword, hm.leftCurword, BMTIDBuffer.emptied, h.sizes.numCwords]
  have hcap₂ := hp.sizes.numCwords
  have hmfill := hm.fill
  -- the header bits: shifted, then those of the new words set
  have hshift : ∀ j, j < BM_NUM_OF_HRL_WORDS_PER_PAGE →
      isFillWord (shiftHeaderBits words₂.hwords words₂.curword BM_NUM_OF_HEADER_WORDS insertPos
        newWords.curword) j =
      if j < insertPos then isFillWord words₁.hwords j
      else if j < insertPos + newWords.curword then false
      else isFillWord words₁.hwords (j - newWords.curword) := by
    intro j hj
    simp only [isFillWord_eq]
    rw [hcur₂, hp.hwords, bitAt_shiftHeaderBits hm.sizes.hwords hsmall (by omega) (by omega) ?_
      (by omega)]
    intro i hi
    rw [← isFillWord_eq, hmfill, hclean i hi, Bool.false_and]
  have hlen := shiftHeaderBits_length words₂.hwords words₂.curword BM_NUM_OF_HEADER_WORDS insertPos
    newWords.curword
  rw [hp.sizes.hwords] at hlen
  obtain ⟨hhlen, hhfill⟩ := headerLoop_fill insertPos newWords.hwords hlen
    newWords.curword
  rw [hcap₂]
  generalize shiftHeaderBits words₂.hwords words₂.curword BM_NUM_OF_HEADER_WORDS insertPos
    newWords.curword = hwords₃ at hshift hhlen hhfill hlen ⊢
  generalize (range newWords.curword).foldl
    (headerStep insertPos BM_NUM_OF_HRL_WORDS_PER_PAGE newWords.hwords) hwords₃ =
    hwords₄ at hhlen hhfill ⊢
  have hfill₄ : ∀ j, j < BM_NUM_OF_HRL_WORDS_PER_PAGE →
      isFillWord hwords₄ j = (spliceAt words insertPos newWords j).fill := by
    intro j hj
    rw [hhfill, hshift j hj, spliceAt_fill, hmfill, hmfill]
    grind
  have hbeyond : ∀ ws : List BM_HRL_WORD, ws.length = BM_NUM_OF_HEADER_WORDS →
      ∀ j, BM_NUM_OF_HRL_WORDS_PER_PAGE ≤ j → isFillWord ws j = false := by
    intro ws hws j hj
    unfold isFillWord
    rw [getD_eq_getElem?_getD, getElem?_eq_none (by omega)]
    simp
  refine ⟨?_, hleft₂, hp.sizes.cwords, hhlen, ?_, hp.sizes.leftHwords, ?_, ?_, ?_, ?_⟩
  · dsimp only
    omega
  · have := hp.sizes.leftCwords
    omega
  · intro j hj
    dsimp only at hj
    exact hrl_ext (hfill₄ j (by omega)) (placed_cword hm hp (by omega) (by omega))
  · intro j hj
    exact hrl_ext (placed_leftFill hm hp hpos hleft₀ (by omega))
      (placed_leftCword hm hp hpos (by omega))
  · intro j hj
    dsimp only at hj
    by_cases hj' : j < BM_NUM_OF_HRL_WORDS_PER_PAGE
    · rw [hfill₄ j hj', spliceAt_fill, if_neg (by omega), if_neg (by omega)]
      exact hclean _ (by omega)
    · exact hbeyond _ hhlen j (by omega)
  · intro j hj
    rw [hp.leftFill, hm.leftFill, hleft₀, decide_eq_false (by omega), decide_eq_false (by omega)]
    rfl

theorem insertNewwords_spec :
    InsertPost words insertPos newWords (insertNewwords words insertPos newWords left).1
      (insertNewwords words insertPos newWords left).2 := by
  by_cases h0 : words.curword = 0
  · exact insertNewwords_empty h h0
  by_cases hfull : insertPos = words.numCwords
  · exact insertNewwords_full h h0 hfull
  · exact insertNewwords_move h h0 hfull

end

end Insert

theorem InsertPost.words_eq {words' left' : BMTIDBuffer}
    (hpos : insertPos ≤ words.curword) (h : InsertPost words insertPos newWords words' left') :
    words'.words = (splice words insertPos newWords).take BM_NUM_OF_HRL_WORDS_PER_PAGE ∧
      left'.words = (splice words insertPos newWords).drop BM_NUM_OF_HRL_WORDS_PER_PAGE := by
  have hc := h.curword
  have hl := h.leftCurword
  constructor
  · apply ext_getElem?
    intro j
    have hj := h.hrl j
    unfold BMTIDBuffer.hrl at hj
    rw [BMTIDBuffer.words, getElem?_hrlWords, getElem?_take, getElem?_splice hpos]
    grind
  apply ext_getElem?
  intro j
  have hj := h.leftHrl j
  unfold BMTIDBuffer.hrl at hj
  rw [BMTIDBuffer.words, getElem?_hrlWords, getElem?_drop, getElem?_splice hpos,
    Nat.add_comm BM_NUM_OF_HRL_WORDS_PER_PAGE j]
  grind

end PolemoDB.Bitmap
