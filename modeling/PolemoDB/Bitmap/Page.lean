import PolemoDB.Bitmap.InsertNewwords

/-!
# Bitmap pages and appending words to them (`_bitmap_write_bitmapwords_on_page`)

* `BMBitmapPage` — a page of compressed words with its opaque data; `BMBitmapPage.OK` — its sizes,
  and no header bit is set behind the last word.
* `writeBitmapwordsOnPage_appends` — as many words of a buffer as fit are appended.
-/

namespace PolemoDB.Bitmap

open PolemoDB.Lib List

/-- A bitmap page: `BMBitmapData` and `BMBitmapOpaqueData`.  `none` stands for `InvalidBlockNumber`.
-/
structure BMBitmapPage where
  hrlWordsUsed : Nat
  bitmapNext : Option Nat
  lastTidLocation : Nat
  hwords : List BM_HRL_WORD
  cwords : List BM_HRL_WORD
  deriving DecidableEq, Repr

def bitmapInitBitmappage : BMBitmapPage where
  hrlWordsUsed := 0
  bitmapNext := none
  lastTidLocation := 0
  hwords := List.replicate BM_NUM_OF_HEADER_WORDS 0
  cwords := List.replicate BM_NUM_OF_HRL_WORDS_PER_PAGE 0

/-- The header words of `wordsWritten` words of a buffer, with the bits of all other words cleared.
-/
def cleanHwords (hwords : List BM_HRL_WORD) (startWordNo wordsWritten : Nat) : List BM_HRL_WORD :=
  let startHwordNo := startWordNo / 64
  let endHwordNo := (startWordNo + wordsWritten - 1) / 64
  let numHwords := endHwordNo - startHwordNo + 1
  let hwords := (hwords.drop startHwordNo).take numHwords ++ [0]
  let startHwordBit := startWordNo % 64
  let endHwordBit := (startWordNo + wordsWritten - 1) % 64
  let hwords := hwords.set 0 ((hwords.getD 0 0 <<< startHwordBit) >>> startHwordBit)
  hwords.set (numHwords - 1)
    ((hwords.getD (numHwords - 1) 0 >>> (64 - endHwordBit - 1)) <<< (64 - endHwordBit - 1))

/-- These header words, shifted so that the first bit is bit `finalStartHwordBit` of a word. -/
def alignHwords (hwords : List BM_HRL_WORD) (startWordNo wordsWritten finalStartHwordBit : Nat) :
    List BM_HRL_WORD :=
  let startHwordBit := startWordNo % 64
  let numHwords := (startWordNo + wordsWritten - 1) / 64 - startWordNo / 64 + 1
  let hwords := cleanHwords hwords startWordNo wordsWritten
  if finalStartHwordBit > startHwordBit then
    rshiftHeaderBits hwords (finalStartHwordBit - startHwordBit)
  else if finalStartHwordBit < startHwordBit then
    lshiftHeaderBits hwords numHwords (startHwordBit - finalStartHwordBit)
  else hwords

variable (page : BMBitmapPage)

/-- `_bitmap_write_bitmapwords_on_page`: the page and the number of words written. -/
def writeBitmapwordsOnPage (buf : BMTIDBuffer) (startWordNo : Nat) : BMBitmapPage × Nat :=
  let cwords := page.hrlWordsUsed
  let wordsWritten := min (buf.curword - startWordNo) (BM_NUM_OF_HRL_WORDS_PER_PAGE - cwords)
  if wordsWritten = 0 then (page, 0)
  else
    let hwords := alignHwords buf.hwords startWordNo wordsWritten (cwords % 64)
    let finalStartHwordNo := cwords / 64
    let finalEndHwordNo := (cwords + wordsWritten - 1) / 64
    let pageHwords := page.hwords.set finalStartHwordNo
      (page.hwords.getD finalStartHwordNo 0 ||| hwords.getD 0 0)
    ({ page with
        cwords := memcpyAt page.cwords cwords ((buf.cwords.drop startWordNo).take wordsWritten)
        hwords := memcpyAt pageHwords (finalStartHwordNo + 1)
          ((hwords.drop 1).take (finalEndHwordNo - finalStartHwordNo))
        hrlWordsUsed := cwords + wordsWritten
        lastTidLocation := buf.lastTids.getD (startWordNo + wordsWritten - 1) 0 }, wordsWritten)

def BMBitmapPage.words : List HrlWord :=
  hrlWords page.hwords page.cwords page.hrlWordsUsed

/-- The sizes of a page, and zeros behind the last header bit. -/
structure BMBitmapPage.OK : Prop where
  hwords : page.hwords.length = BM_NUM_OF_HEADER_WORDS
  cwords : page.cwords.length = BM_NUM_OF_HRL_WORDS_PER_PAGE
  used : page.hrlWordsUsed ≤ BM_NUM_OF_HRL_WORDS_PER_PAGE
  clean : ∀ i, page.hrlWordsUsed ≤ i → isFillWord page.hwords i = false

theorem bitmapInitBitmappage_ok : bitmapInitBitmappage.OK :=
  ⟨by simp [bitmapInitBitmappage], by simp [bitmapInitBitmappage], Nat.zero_le _,
    fun i _ => isFillWord_zeros _ i⟩

/-! ## The header bits that are written -/

theorem bitAt_drop_take (ws : List BM_HRL_WORD) {a n : Nat} (h : a + n ≤ ws.length) (i : Nat) :
    bitAt ((ws.drop a).take n ++ [0]) i = (decide (i < 64 * n) && bitAt ws (64 * a + i)) := by
  unfold bitAt
  have hlen : ((ws.drop a).take n).length = n := by simp; omega
  rw [getD_eq_getElem?_getD, getElem?_append, hlen]
  by_cases hi : i / 64 < n
  · rw [if_pos hi, decide_eq_true (by omega), Bool.true_and, getElem?_take_of_lt hi, getElem?_drop,
      ← getD_eq_getElem?_getD, show (64 * a + i) / 64 = a + i / 64 by omega,
      show (64 * a + i) % 64 = i % 64 by omega]
  rw [if_neg hi, decide_eq_false (by omega), Bool.false_and]
  by_cases h0 : i / 64 - n = 0
  · simp [h0]
  · simp

section Align

variable {hwords : List BM_HRL_WORD} {start written : Nat}
  (hlen : hwords.length = BM_NUM_OF_HEADER_WORDS) (hpos : 0 < written)
  (hend : start + written ≤ BM_NUM_OF_HRL_WORDS_PER_PAGE)

include hlen hpos hend

theorem cleanHwords_length :
    (cleanHwords hwords start written).length = (start + written - 1) / 64 - start / 64 + 2 := by
  obtain ⟨hcap, hhead⟩ := page_sizes
  unfold cleanHwords
  simp
  omega

theorem bitAt_cleanHwords (i : Nat) : bitAt (cleanHwords hwords start written) i =
    (decide (start % 64 ≤ i ∧ i < start % 64 + written) && bitAt hwords
    (64 * (start / 64) + i)) := by
  obtain ⟨hcap, hhead⟩ := page_sizes
  have hr := Nat.mod_lt i (show 0 < 64 by decide)
  have hl := cleanHwords_length hlen hpos hend
  unfold cleanHwords at hl ⊢
  dsimp only at hl ⊢
  have h0 := bitAt_drop_take hwords (a := start / 64)
    (n := (start + written - 1) / 64 - start / 64 + 1) (by omega)
  generalize hg : (hwords.drop (start / 64)).take ((start + written - 1) / 64 - start / 64 + 1) ++
    [0] = ws₀ at h0 hl ⊢
  rw [length_set, length_set] at hl
  -- the first word
  have h1 : ∀ i, bitAt (ws₀.set 0 ((ws₀.getD 0 0 <<< (start % 64)) >>> (start % 64))) i =
      (decide (start % 64 ≤ i) && bitAt ws₀ i) := by
    intro i
    rw [bitAt_set]
    by_cases hi : i / 64 = 0
    · rw [if_pos ⟨hi, by omega⟩, getMsbD_low _ (Nat.mod_lt _ (by decide)), show i % 64 = i by omega]
      unfold bitAt
      rw [hi, show i % 64 = i by omega]
    · rw [if_neg (fun h => hi h.1), decide_eq_true (by omega), Bool.true_and]
  generalize hws₁ : ws₀.set 0 ((ws₀.getD 0 0 <<< (start % 64)) >>> (start % 64)) = ws₁ at h1 ⊢
  replace hws₁ := hws₁.symm
  -- the last word
  have hl1 : ws₁.length = (start + written - 1) / 64 - start / 64 + 2 := by
    rw [hws₁, length_set, hl]
  rw [bitAt_set, Nat.add_sub_cancel, hl1]
  have hkeep := getMsbD_keep (ws₁.getD ((start + written - 1) / 64 - start / 64) 0)
    (r := (start + written - 1) % 64 + 1) hr
  rw [if_pos (by omega), show 64 - ((start + written - 1) % 64 + 1) =
    64 - (start + written - 1) % 64 - 1 by omega] at hkeep
  by_cases hi : i / 64 = (start + written - 1) / 64 - start / 64
  · rw [if_pos ⟨hi, by omega⟩, hkeep, ← hi,
      show (ws₁.getD (i / 64) 0).getMsbD (i % 64) = bitAt ws₁ i from rfl,
      h1, h0, decide_eq_true (show i < 64 * _ by omega), Bool.true_and, ← Bool.and_assoc,
      ← Bool.decide_and]
    congr 2
    simp only [eq_iff_iff]
    omega
  · rw [if_neg (fun h => hi h.1), h1, h0, ← Bool.and_assoc, ← Bool.decide_and]
    congr 2
    simp only [eq_iff_iff]
    omega

theorem bitAt_alignHwords {s : Nat} (hs : s < 64) {i : Nat} (hi : i / 64 ≤ (s + written - 1) / 64) :
    bitAt (alignHwords hwords start written s) i =
      (decide (s ≤ i ∧ i < s + written) && bitAt hwords (start + (i - s))) := by
  have hl := cleanHwords_length hlen hpos hend
  have hclean := bitAt_cleanHwords hlen hpos hend
  unfold alignHwords
  by_cases h1 : s > start % 64
  · rw [if_pos h1, bitAt_rshiftHeaderBits (by omega) _ (by omega), hclean]
    by_cases h : s ≤ i ∧ i < s + written
    · rw [if_neg (by omega), decide_eq_true (by omega), decide_eq_true h]
      congr 2
      omega
    rw [decide_eq_false h]
    split
    · simp
    · rw [decide_eq_false (by omega)]
      simp
  · rw [if_neg h1]
    by_cases h2 : s < start % 64
    · rw [if_pos h2, bitAt_lshiftHeaderBits _ (by omega) (by omega) (by omega), hclean]
      by_cases h : s ≤ i ∧ i < s + written
      · rw [decide_eq_true (show i + _ < 64 * _ by omega), decide_eq_true (by omega),
          decide_eq_true h, Bool.true_and]
        congr 2
        omega
      · rw [decide_eq_false (show ¬ (start % 64 ≤ _ ∧ _) by omega), decide_eq_false h]
        simp
    · rw [if_neg h2, hclean, show start % 64 = s by omega]
      by_cases h : s ≤ i ∧ i < s + written
      · congr 2
        omega
      · rw [decide_eq_false h]
        simp

end Align

/-! ## Appending to a page -/

variable {hwords : List BM_HRL_WORD} {start written : Nat} {page : BMBitmapPage}

theorem alignHwords_length {s : Nat} (hlen : hwords.length = BM_NUM_OF_HEADER_WORDS)
    (hpos : 0 < written) (hend : start + written ≤ BM_NUM_OF_HRL_WORDS_PER_PAGE) :
    (alignHwords hwords start written s).length = (start + written - 1) / 64 - start / 64 + 2 := by
  rw [← cleanHwords_length hlen hpos hend]
  unfold alignHwords
  dsimp only
  split_ifs <;> simp

theorem bitAt_orCopy {ws : List BM_HRL_WORD} {a k : Nat} (hk : k + 1 ≤ ws.length)
    (ha : a + 1 + k ≤ hwords.length) (i : Nat) :
      bitAt (memcpyAt (hwords.set a (hwords.getD a 0 ||| ws.getD 0 0)) (a + 1) ((ws.drop 1).take k))
      i = if i / 64 = a then bitAt hwords i || bitAt ws (i % 64)
      else if a < i / 64 ∧ i / 64 ≤ a + k then bitAt ws (i - 64 * a)
      else bitAt hwords i := by
  have hr := Nat.mod_lt i (show 0 < 64 by decide)
  unfold bitAt
  rw [getD_memcpyAt_slice (by omega) (by rw [length_set]; omega), getD_set]
  by_cases hfirst : i / 64 = a
  · rw [if_neg (by omega), if_pos ⟨hfirst, by omega⟩, if_pos hfirst, BitVec.getMsbD_or, hfirst]
    simp [Nat.div_eq_of_lt hr]
  rw [if_neg (show ¬ (i / 64 = a ∧ _) from fun h => hfirst h.1), if_neg hfirst]
  by_cases hmid : a < i / 64 ∧ i / 64 ≤ a + k
  · rw [if_pos (by omega), if_pos hmid, show (i - 64 * a) % 64 = i % 64 by omega]
    congr 2
    omega
  · rw [if_neg (by omega), if_neg hmid]

theorem bitAt_pageHwords (hok : page.OK) (hlen : hwords.length = BM_NUM_OF_HEADER_WORDS)
    (hpos : 0 < written) (hend : start + written ≤ BM_NUM_OF_HRL_WORDS_PER_PAGE)
    (hroom : page.hrlWordsUsed + written ≤ BM_NUM_OF_HRL_WORDS_PER_PAGE) (i : Nat) :
    let ws := alignHwords hwords start written (page.hrlWordsUsed % 64)
    bitAt (memcpyAt (page.hwords.set (page.hrlWordsUsed / 64)
        (page.hwords.getD (page.hrlWordsUsed / 64) 0 ||| ws.getD 0 0)) (page.hrlWordsUsed / 64 + 1)
        ((ws.drop 1).take ((page.hrlWordsUsed + written - 1) / 64 - page.hrlWordsUsed / 64))) i =
      if i < page.hrlWordsUsed then bitAt page.hwords i
      else (decide (i < page.hrlWordsUsed + written) && bitAt hwords
        (start + (i - page.hrlWordsUsed))) := by
  intro ws
  obtain ⟨hcap, hhead⟩ := page_sizes
  have hlen' : ws.length = (start + written - 1) / 64 - start / 64 + 2 :=
    alignHwords_length hlen hpos hend
  have hph := hok.hwords
  have hclean : ∀ i, page.hrlWordsUsed ≤ i → bitAt page.hwords i = false := by
    intro i hi
    rw [← isFillWord_eq, hok.clean i hi]
  have hal : ∀ j, j / 64 ≤ (page.hrlWordsUsed % 64 + written - 1) / 64 → bitAt ws j =
      (decide (page.hrlWordsUsed % 64 ≤ j ∧ j < page.hrlWordsUsed % 64 + written) &&
        bitAt hwords (start + (j - page.hrlWordsUsed % 64))) :=
    fun j hj => bitAt_alignHwords hlen hpos hend (Nat.mod_lt _ (by decide)) hj
  generalize page.hrlWordsUsed = u at hroom hclean hal ⊢
  rw [bitAt_orCopy (by omega) (by omega)]
  by_cases hfirst : i / 64 = u / 64
  · rw [if_pos hfirst, hal _ (by omega)]
    by_cases hold : i < u
    · rw [if_pos hold, decide_eq_false (by omega), Bool.false_and, Bool.or_false]
    rw [if_neg hold, hclean i (by omega), Bool.false_or, show i % 64 - u % 64 = i - u by omega]
    congr 2
    simp only [eq_iff_iff]
    omega
  · rw [if_neg hfirst]
    by_cases hmid : u / 64 < i / 64 ∧ i / 64 ≤ (u + written - 1) / 64
    · rw [if_pos (by omega), hal _ (by omega), if_neg (by omega),
        show i - 64 * (u / 64) - u % 64 = i - u by omega]
      congr 2
      simp only [eq_iff_iff]
      omega
    · rw [if_neg (by omega)]
      by_cases hold : i < u
      · rw [if_pos hold]
      · rw [if_neg hold, hclean i (by omega), decide_eq_false (by omega), Bool.false_and]

/-- The words of a buffer that fit are appended to the page. -/
structure PageAppended (page : BMBitmapPage) (buf : BMTIDBuffer) (start : Nat)
    (page' : BMBitmapPage) (written : Nat) : Prop where
  written_eq : written = min (buf.curword - start)
    (BM_NUM_OF_HRL_WORDS_PER_PAGE - page.hrlWordsUsed)
  ok : page'.OK
  used : page'.hrlWordsUsed = page.hrlWordsUsed + written
  words : page'.words = page.words ++ (buf.words.drop start).take written
  next : page'.bitmapNext = page.bitmapNext
  lastTid : page'.lastTidLocation =
    if written = 0 then page.lastTidLocation else buf.lastTids.getD (start + written - 1) 0

/-- What `_bitmap_write_bitmapwords_on_page` needs of its buffer. -/
structure BMTIDBuffer.Writable (buf : BMTIDBuffer) : Prop where
  hwords : buf.hwords.length = BM_NUM_OF_HEADER_WORDS
  cwords : buf.curword ≤ buf.cwords.length
  curword : buf.curword ≤ BM_NUM_OF_HRL_WORDS_PER_PAGE

theorem writeBitmapwordsOnPage_spec (hok : page.OK) {buf : BMTIDBuffer} (hbuf : buf.Writable)
    (start : Nat) : PageAppended page buf start (writeBitmapwordsOnPage page buf start).1
      (writeBitmapwordsOnPage page buf start).2 := by
  have hcw := hok.cwords
  have hph := hok.hwords
  obtain ⟨hcap, hhead⟩ := page_sizes
  have hcur := hbuf.curword
  have hbc := hbuf.cwords
  unfold writeBitmapwordsOnPage
  dsimp only
  generalize hn : min (buf.curword - start) (BM_NUM_OF_HRL_WORDS_PER_PAGE - page.hrlWordsUsed) = n
  by_cases h0 : n = 0
  · rw [if_pos h0]
    exact ⟨by rw [hn, h0], hok, rfl, by simp, rfl, by simp⟩
  rw [if_neg h0]
  have hfill := bitAt_pageHwords hok hbuf.hwords (Nat.pos_of_ne_zero h0)
    (show start + n ≤ BM_NUM_OF_HRL_WORDS_PER_PAGE by omega) (by omega)
  have hlen : ((buf.cwords.drop start).take n).length = n := by simp; omega
  refine ⟨hn.symm, ⟨?_, ?_, ?_, ?_⟩, rfl, ?_, rfl, by rw [if_neg h0]⟩
  · rw [memcpyAt_length, length_set, hph]
    rw [length_set, hph, length_take]
    omega
  · rw [memcpyAt_length (by omega), hcw]
  · show page.hrlWordsUsed + n ≤ _
    omega
  · intro i hi
    rw [isFillWord_eq, hfill, if_neg (by simp at hi; omega), decide_eq_false (by simp at hi; omega),
      Bool.false_and]
  · apply ext_getElem?
    intro i
    have hsplit : page.words.length = page.hrlWordsUsed := by simp [BMBitmapPage.words]
    rw [getElem?_append, hsplit]
    unfold BMBitmapPage.words BMTIDBuffer.words
    rw [getElem?_hrlWords, isFillWord_eq, hfill, getD_memcpyAt_slice (by omega) (by omega),
      getElem?_hrlWords, isFillWord_eq, getElem?_take, getElem?_drop, getElem?_hrlWords,
      isFillWord_eq]
    grind

/-- **Writing on a page.**  The words of the buffer from word `start` on are appended, as many as
there are and as fit; the words of the page stay, no header bit is set behind them, and the page
remembers the last tid. -/
theorem writeBitmapwordsOnPage_appends {page : BMBitmapPage} (hok : page.OK) {buf : BMTIDBuffer}
    (hbuf : buf.Writable) {start : Nat} (hstart : start ≤ buf.curword) {page' : BMBitmapPage}
    {n : Nat} (hwrite : writeBitmapwordsOnPage page buf start = (page', n)) :
    n = min (buf.curword - start) (BM_NUM_OF_HRL_WORDS_PER_PAGE - page.hrlWordsUsed) ∧
      page'.hrlWordsUsed = page.hrlWordsUsed + n ∧
      page'.words.take page.hrlWordsUsed = page.words ∧
      page'.words.drop page.hrlWordsUsed = (buf.words.drop start).take n ∧
      (page'.words.drop page.hrlWordsUsed).length = n ∧
      (∀ i, page.hrlWordsUsed + n ≤ i → isFillWord page'.hwords i = false) ∧
      (0 < n → page'.lastTidLocation = buf.lastTids.getD (start + n - 1) 0) := by
  have happ := writeBitmapwordsOnPage_spec hok hbuf start
  rw [hwrite] at happ
  have hn := happ.written_eq
  have hused : page.words.length = page.hrlWordsUsed := by simp [BMBitmapPage.words]
  have hdrop : page'.words.drop page.hrlWordsUsed = (buf.words.drop start).take n := by
    rw [happ.words, ← hused, drop_left]
  refine ⟨hn, happ.used, ?_, hdrop, ?_, fun i hi => happ.ok.clean i (happ.used.trans_le hi),
    fun hpos => ?_⟩
  · rw [happ.words, ← hused, take_left]
  · rw [hdrop, length_take, length_drop, BMTIDBuffer.words, hrlWords_length]
    omega
  · rw [happ.lastTid, if_neg (by omega)]

/-- A literal word and a fill of three words. -/
def twoWords : BMTIDBuffer := { BMTIDBuffer.zero with
    curword := 2
    numCwords := 8
    cwords := [5, 3, 0, 0, 0, 0, 0, 0]
    lastTids := [64, 256, 0, 0, 0, 0, 0, 0]
    hwords := (1 <<< 62) :: List.replicate 61 0 }

/-- The second word alone, and both words behind it. -/
theorem writeBitmapwordsOnPage_appends_fill :
    let page := (writeBitmapwordsOnPage bitmapInitBitmappage twoWords 1).1
    let page' := (writeBitmapwordsOnPage page twoWords 0).1
    page'.hrlWordsUsed = 3 ∧ page'.words.take 1 = page.words ∧ page'.words.drop 1 = twoWords.words ∧
      page'.lastTidLocation = 256 := by
  intro page page'
  have hbuf : twoWords.Writable := ⟨by decide, by decide, by decide⟩
  have hok : page.OK := (writeBitmapwordsOnPage_spec bitmapInitBitmappage_ok hbuf 1).ok
  have hwrite : writeBitmapwordsOnPage page twoWords 0 = (page', 2) := rfl
  obtain ⟨-, hused, htake, hdrop, -, -, hlast⟩ :=
    writeBitmapwordsOnPage_appends hok hbuf (Nat.zero_le _) hwrite
  exact ⟨hused, htake, hdrop, hlast Nat.two_pos⟩

end PolemoDB.Bitmap
