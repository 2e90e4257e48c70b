import PolemoDB.Bitmap.Xlog

/-!
# What a logged write leaves

The pages that one write changes, in the relation and in the record: a page that existed is noted
with the words that changed on it (`Noted`), so that redo of the note on the page before gives the
page after (`redoPerpage_eq`); all pages but the first are new ones.

* `writeLogged_spec` — the index and the record after a write (`Logged`).
-/

namespace PolemoDB.Bitmap

open PolemoDB.Lib List WrittenPage

/-! ## What is written on a page -/

/-- The sizes of the two arrays of a page. -/
structure BMBitmapPage.Sized (page : BMBitmapPage) : Prop where
  hwords : page.hwords.length = BM_NUM_OF_HEADER_WORDS
  cwords : page.cwords.length = BM_NUM_OF_HRL_WORDS_PER_PAGE
  used : page.hrlWordsUsed ≤ BM_NUM_OF_HRL_WORDS_PER_PAGE

theorem bitmapInitBitmappage_sized : bitmapInitBitmappage.Sized :=
  ⟨by simp [bitmapInitBitmappage], by simp [bitmapInitBitmappage], Nat.zero_le _⟩

/-- A page and the note of what was written on it: everything outside the noted words is as before.
-/
structure Noted (before page : BMBitmapPage) (note : XlPerpage) : Prop where
  sized : page.Sized
  next : page.bitmapNext = before.bitmapNext
  hwordsIn : note.bmpStartHwordNo + note.bmpNumHwords ≤ page.hwords.length
  hwords : ∀ i, i < note.bmpStartHwordNo ∨ note.bmpStartHwordNo + note.bmpNumHwords ≤ i →
    before.hwords[i]? = page.hwords[i]?
  cwordsIn : note.bmpStartCwordNo + note.bmpNumCwords ≤ page.cwords.length
  cwords : ∀ i, i < note.bmpStartCwordNo ∨ note.bmpStartCwordNo + note.bmpNumCwords ≤ i →
    before.cwords[i]? = page.cwords[i]?
  used : page.hrlWordsUsed = note.bmpStartCwordNo + note.bmpNumCwords
  lastTid : page.lastTidLocation = note.bmpLastTid
  noNext : note.bmNextBlkno = 0

variable {before q page : BMBitmapPage} {isFirst : Bool} {w v : WrittenPage} {ws : List WrittenPage}
  {xlrec : XlBitmapwords}

theorem notePerpage_noted (h : before.Sized) (blkno : Nat) (buf : BMTIDBuffer) (start : Nat) :
    Noted before (writeBitmapwordsOnPage before buf start).1
    (notePerpage blkno before buf start) := by
  obtain ⟨hcap, hhead⟩ := page_sizes
  have hused := h.used
  have hhw := h.hwords
  have hcw := h.cwords
  unfold writeBitmapwordsOnPage notePerpage
  dsimp only
  generalize hn : min (buf.curword - start) (BM_NUM_OF_HRL_WORDS_PER_PAGE - before.hrlWordsUsed) = n
  by_cases h0 : n = 0
  · rw [if_pos h0, if_pos h0]
    refine ⟨h, rfl, ?_, fun _ _ => rfl, ?_, fun _ _ => rfl, rfl, rfl, rfl⟩
    · dsimp only
      omega
    · dsimp only
      omega
  rw [if_neg h0, if_neg h0]
  -- the arrays that are copied are at most as long as noted
  have hclen : ((buf.cwords.drop start).take n).length ≤ n := by
    rw [length_take]
    omega
  have hhlen : ∀ ws : List BM_HRL_WORD, ((ws.drop 1).take
      ((before.hrlWordsUsed + n - 1) / 64 - before.hrlWordsUsed / 64)).length ≤
      (before.hrlWordsUsed + n - 1) / 64 - before.hrlWordsUsed / 64 := by
    intro ws
    rw [length_take]
    omega
  have hhl := hhlen (alignHwords buf.hwords start n (before.hrlWordsUsed % 64))
  have hhfit : before.hrlWordsUsed / 64 + 1 +
      (((alignHwords buf.hwords start n (before.hrlWordsUsed % 64)).drop 1).take
      ((before.hrlWordsUsed + n - 1) / 64 - before.hrlWordsUsed / 64)).length ≤ (before.hwords.set
        (before.hrlWordsUsed / 64) (before.hwords.getD (before.hrlWordsUsed / 64) 0 |||
          (alignHwords buf.hwords start n (before.hrlWordsUsed % 64)).getD 0 0)).length := by
    rw [length_set]
    omega
  have hcfit : before.hrlWordsUsed + ((buf.cwords.drop start).take n).length ≤
      before.cwords.length := by omega
  refine ⟨⟨?_, ?_, ?_⟩, rfl, ?_, ?_, ?_, ?_, rfl, rfl, rfl⟩
  · rw [memcpyAt_length hhfit, length_set, hhw]
  · rw [memcpyAt_length hcfit, hcw]
  · dsimp only
    omega
  · dsimp only
    rw [memcpyAt_length hhfit, length_set]
    omega
  · intro i hi
    dsimp only at hi ⊢
    rw [getElem?_memcpyAt hhfit, if_neg (by omega), getElem?_set_ne (by omega)]
  · dsimp only
    rw [memcpyAt_length hcfit]
    omega
  · intro i hi
    dsimp only at hi ⊢
    rw [getElem?_memcpyAt hcfit, if_neg (by omega)]

/-- The same page, but for the next pointer. -/
def BMBitmapPage.SameWords (p q : BMBitmapPage) : Prop := { p with bitmapNext := q.bitmapNext } = q

variable {p : BMBitmapPage} {idx' idx : BitmapIndex}

theorem BMBitmapPage.SameWords.of_eq (h : p = q) : p.SameWords q := h ▸ rfl

theorem BMBitmapPage.SameWords.arrays (h : p.SameWords q) : p.hwords = q.hwords ∧
    p.cwords = q.cwords := by
  rw [← h]
  exact ⟨rfl, rfl⟩

/-- **Redo of a page that was the primary's before the record**: the words, the number of used words
and the last tid become the primary's, the next pointer becomes what the record says. -/
theorem redoPerpage_eq {note data : XlPerpage} (hsized : before.Sized)
    (hnote : Noted before page note) (hp : p.SameWords before)
    (hdata : data = { note with
      bmNextBlkno := data.bmNextBlkno
      hwords := (page.hwords.drop note.bmpStartHwordNo).take note.bmpNumHwords
      cwords := (page.cwords.drop note.bmpStartCwordNo).take note.bmpNumCwords }) :
    redoPerpage data p = { page with bitmapNext := some data.bmNextBlkno } := by
  obtain ⟨hh, hc⟩ := hp.arrays
  have hh' := memcpyAt_slice (hsized.hwords.trans hnote.sized.hwords.symm) hnote.hwordsIn
    hnote.hwords
  have hc' := memcpyAt_slice (hsized.cwords.trans hnote.sized.cwords.symm) hnote.cwordsIn
    hnote.cwords
  unfold redoPerpage
  rw [hdata, hh, hc, hh', hc', hnote.used, hnote.lastTid]

/-! ## The pages of one write -/

/-- What a write relies on: the pages have their sizes, and the last page of the LOV item has no
next page. -/
structure BitmapIndex.Linked (idx : BitmapIndex) : Prop where
  sized : ∀ (b : Nat) (page : BMBitmapPage), idx.pages[b]? = some page → page.Sized
  tail : idx.lov.bmLovHead ≠ none →
    ∃ t page, idx.lov.bmLovTail = some t ∧ idx.pages[t]? = some page ∧ page.bitmapNext = none

structure WrittenPage.Ok (idx : BitmapIndex) (w : WrittenPage) : Prop where
  written : ∃ before, before.Sized ∧ before.bitmapNext = none ∧ Noted before w.page w.xlrec ∧
    (w.isNew = false → idx.pages[w.blkno]? = some before)
  blkno : w.xlrec.bmpBlkno = w.blkno
  isNew : w.isNew = true → idx.pages.length ≤ w.blkno

variable {idx idx₁ : BitmapIndex} {ws : List WrittenPage} {buf : BMTIDBuffer}

theorem notePerpage_blkno (blkno : Nat) (page : BMBitmapPage) (buf : BMTIDBuffer) (start : Nat) :
    (notePerpage blkno page buf start).bmpBlkno = blkno := by
  unfold notePerpage
  dsimp only
  split <;> rfl

theorem pageToWrite_spec (h : idx.Linked) {blkno : Nat}
    (hp : pageToWrite idx isFirst = .ok (idx₁, blkno, page)) : page.Sized ∧ page.bitmapNext = none ∧
      ((isFirst = true ∧ idx.lov.bmLovHead ≠ none) ∧ idx₁ = idx ∧ idx.lov.bmLovTail = some blkno ∧
          idx.pages[blkno]? = some page ∨
        ¬ (isFirst = true ∧ idx.lov.bmLovHead ≠ none) ∧ idx₁ = idx.newPage ∧
          blkno = idx.pages.length ∧ page = bitmapInitBitmappage) := by
  unfold pageToWrite at hp
  by_cases hfirst : isFirst = true ∧ idx.lov.bmLovHead ≠ none
  · rw [if_pos hfirst] at hp
    obtain ⟨t, p, htail, hget, hnext⟩ := h.tail hfirst.2
    unfold BitmapIndex.getbuf at hp
    rw [htail] at hp
    simp only [hget] at hp
    obtain ⟨rfl, rfl, rfl⟩ : idx = idx₁ ∧ t = blkno ∧ p = page := by simpa using hp
    exact ⟨h.sized _ _ hget, hnext, .inl ⟨hfirst, rfl, htail, hget⟩⟩
  · rw [if_neg hfirst] at hp
    obtain ⟨rfl, rfl, rfl⟩ : idx.newPage = idx₁ ∧ idx.pages.length = blkno ∧
        bitmapInitBitmappage = page := by
      simpa using hp
    exact ⟨bitmapInitBitmappage_sized, rfl, .inr ⟨hfirst, rfl, rfl, rfl⟩⟩

/-- What the loop of one write leaves: the blocks of the relation, and pages in the order of their
blocks. -/
structure WrittenPages (idx idx₁ : BitmapIndex) (ws : List WrittenPage) : Prop where
  lov : idx₁.lov = idx.lov
  pages : ∃ k, idx₁.pages = idx.pages ++ List.replicate k bitmapInitBitmappage
  ok : ∀ w ∈ ws, w.Ok idx
  sorted : ws.Pairwise fun v w => v.blkno < w.blkno
  lt : ∀ w ∈ ws, w.blkno < idx₁.pages.length
  tailNew : ∀ w ∈ ws.tail, w.isNew = true
  blocks : ∀ b, idx.pages.length ≤ b → b < idx₁.pages.length → ∃ w ∈ ws, w.blkno = b ∧
    w.isNew = true

theorem BitmapIndex.Linked.newPage (h : idx.Linked) : idx.newPage.Linked := by
  have hpages : idx.newPage.pages = idx.pages ++ [bitmapInitBitmappage] := rfl
  refine ⟨fun b page hget => ?_, fun hhead => ?_⟩
  · rw [hpages, getElem?_append] at hget
    split at hget
    · exact h.sized b page hget
    · have hmem := mem_of_getElem? hget
      rw [mem_singleton.1 hmem]
      exact bitmapInitBitmappage_sized
  · obtain ⟨t, page, htail, hget, hnext⟩ := h.tail hhead
    refine ⟨t, page, htail, ?_, hnext⟩
    have hlt := (List.getElem?_eq_some_iff.1 hget).1
    rw [hpages, getElem?_append_left hlt, hget]

theorem WrittenPages.cons (hw : w.Ok idx) (hlt : w.blkno < idx'.pages.length)
    (hlov : idx'.lov = idx.lov) (hidx : idx' = idx ∧ w.isNew = false ∨ idx'.pages = idx.pages ++
      [bitmapInitBitmappage] ∧ w.isNew = true ∧ w.blkno = idx.pages.length)
    (hrest : WrittenPages idx' idx₁ ws) (hnew : ∀ v ∈ ws, v.isNew = true) :
      WrittenPages idx idx₁ (w :: ws) := by
  have hle : idx.pages.length ≤ idx'.pages.length := by
    rcases hidx with ⟨rfl, -⟩ | ⟨hpages, -⟩
    · exact Nat.le_refl _
    · rw [hpages, length_append]
      omega
  have hle' : idx'.pages.length ≤ idx₁.pages.length := by
    obtain ⟨k, hk⟩ := hrest.pages
    rw [hk, length_append]
    omega
  refine ⟨hrest.lov.trans hlov, ?_, ?_, ?_, ?_, hnew, ?_⟩
  · obtain ⟨k, hk⟩ := hrest.pages
    rcases hidx with ⟨rfl, -⟩ | ⟨hpages, -⟩
    · exact ⟨k, hk⟩
    · refine ⟨k + 1, ?_⟩
      rw [hk, hpages, append_assoc, replicate_succ]
      rfl
  · intro v hv
    rcases mem_cons.1 hv with rfl | hv
    · exact hw
    obtain ⟨before, hsized, hnext, hnoted, -⟩ := (hrest.ok v hv).written
    refine ⟨⟨before, hsized, hnext, hnoted, fun hold => ?_⟩, (hrest.ok v hv).blkno, fun hn => ?_⟩
    · rw [hnew v hv] at hold
      cases hold
    · exact hle.trans ((hrest.ok v hv).isNew hn)
  · refine pairwise_cons.2 ⟨fun v hv => ?_, hrest.sorted⟩
    exact lt_of_lt_of_le hlt ((hrest.ok v hv).isNew (hnew v hv))
  · intro v hv
    rcases mem_cons.1 hv with rfl | hv
    · omega
    · exact hrest.lt v hv
  · intro b hb hb'
    by_cases hbehind : idx'.pages.length ≤ b
    · obtain ⟨v, hv, hvb⟩ := hrest.blocks b hbehind hb'
      exact ⟨v, mem_cons_of_mem _ hv, hvb⟩
    rcases hidx with ⟨rfl, -⟩ | ⟨hpages, hwnew, hwblk⟩
    · exact absurd hb hbehind
    · rw [hpages, length_append, length_singleton] at hbehind
      exact ⟨w, mem_cons_self, by omega, hwnew⟩

theorem WrittenPages.nil (idx : BitmapIndex) : WrittenPages idx idx [] :=
  ⟨rfl, ⟨0, by simp⟩, nofun, List.Pairwise.nil, nofun, nofun,
  fun _ hb hb' => absurd hb' (Nat.not_lt.2 hb)⟩

/-- The page of one pass: the last one of the LOV item in the first pass, if there is one, or a new
one. -/
def WrittenPage.FirstOf (idx : BitmapIndex) (isFirst : Bool) (w : WrittenPage) : Prop :=
  (isFirst = true ∧ idx.lov.bmLovHead ≠ none) ∧ w.isNew = false ∧ idx.lov.bmLovTail = some w.blkno ∨
    ¬ (isFirst = true ∧ idx.lov.bmLovHead ≠ none) ∧ w.isNew = true ∧ w.blkno = idx.pages.length

theorem pageToWrite_written (h : idx.Linked) {blkno : Nat}
    (hp : pageToWrite idx isFirst = .ok (idx', blkno, page))
    {w : WrittenPage} (hw : w = ⟨blkno, !(isFirst && idx.lov.bmLovHead.isSome),
      (writeBitmapwordsOnPage page buf start).1, notePerpage blkno page buf start⟩) :
    idx'.Linked ∧ w.FirstOf idx isFirst ∧
      ∀ {idx₁ ws}, WrittenPages idx' idx₁ ws → (∀ v ∈ ws, v.isNew = true) →
      WrittenPages idx idx₁ (w :: ws) := by
  obtain ⟨hsized, hnext, hcase⟩ := pageToWrite_spec h hp
  have hblkno : w.blkno = blkno := by rw [hw]
  have hnoted : Noted page w.page w.xlrec := hw ▸ notePerpage_noted hsized blkno buf start
  have hxlrec : w.xlrec.bmpBlkno = w.blkno := hw ▸ notePerpage_blkno blkno page buf start
  have hisNew : w.isNew = false ↔ isFirst = true ∧ idx.lov.bmLovHead ≠ none := by
    rw [hw]
    simp [Option.isSome_iff_ne_none]
  rcases hcase with ⟨hold, rfl, htail, hget⟩ | ⟨hnot, rfl, hlen, -⟩
  · have hfalse := hisNew.2 hold
    rw [← hblkno] at htail hget
    refine ⟨h, .inl ⟨hold, hfalse, htail⟩,
      .cons ⟨⟨page, hsized, hnext, hnoted, fun _ => hget⟩, hxlrec, fun hnew => ?_⟩
      (List.getElem?_eq_some_iff.1 hget).1 rfl (.inl ⟨rfl, hfalse⟩)⟩
    rw [hfalse] at hnew
    cases hnew
  · have htrue : w.isNew = true := by
      rw [← Bool.not_eq_false, hisNew]
      exact hnot
    rw [← hblkno] at hlen
    refine ⟨h.newPage, .inr ⟨hnot, htrue, hlen⟩,
      .cons ⟨⟨page, hsized, hnext, hnoted, fun hold => ?_⟩, hxlrec,
      fun _ => hlen.ge⟩ ?_ rfl (.inr ⟨rfl, htrue, hlen⟩)⟩
    · exact absurd (hisNew.1 hold) hnot
    · show w.blkno < (idx.pages ++ [bitmapInitBitmappage]).length
      rw [hlen, length_append]
      exact Nat.lt_succ_self _

theorem writePagesLogged_spec {n start : Nat} (h : idx.Linked)
    (hw : writePagesLogged buf n idx isFirst start = .ok (idx₁, ws)) :
    WrittenPages idx idx₁ ws ∧ ∃ w rest, ws = w :: rest ∧ w.FirstOf idx isFirst := by
  induction n generalizing idx isFirst start ws with
  | zero => cases hw
  | succ n ih =>
    unfold writePagesLogged at hw
    cases hp : pageToWrite idx isFirst with
    | error e =>
      rw [hp] at hw
      cases hw
    | ok r =>
      obtain ⟨idx', blkno, page⟩ := r
      rw [hp] at hw
      dsimp only at hw
      generalize hwdef : (⟨blkno, !(isFirst && idx.lov.bmLovHead.isSome),
        (writeBitmapwordsOnPage page buf start).1, notePerpage blkno page buf start⟩ :
        WrittenPage) = w at hw
      obtain ⟨hlinked, hfirst, hcons⟩ := pageToWrite_written h hp hwdef.symm
      by_cases hmore : buf.curword - (start + (writeBitmapwordsOnPage page buf start).2) > 0
      · rw [if_pos hmore] at hw
        cases hrec : writePagesLogged buf n idx' false
          (start + (writeBitmapwordsOnPage page buf start).2) with
        | error e =>
          rw [hrec] at hw
          cases hw
        | ok r =>
          obtain ⟨idx₂, rest⟩ := r
          rw [hrec] at hw
          obtain ⟨rfl, rfl⟩ : idx₂ = idx₁ ∧ w :: rest = ws := by simpa using hw
          obtain ⟨hrest, v, rest', rfl, hv⟩ := ih hlinked hrec
          have hvnew : v.isNew = true := by
            rcases hv with ⟨⟨hf, -⟩, -⟩ | ⟨-, hn, -⟩
            · cases hf
            · exact hn
          refine ⟨hcons hrest fun u hu => ?_, w, _, rfl, hfirst⟩
          rcases mem_cons.1 hu with rfl | hu
          · exact hvnew
          · exact hrest.tailNew u hu
      · rw [if_neg hmore] at hw
        obtain ⟨rfl, rfl⟩ : idx' = idx₁ ∧ [w] = ws := by simpa using hw
        exact ⟨hcons (.nil idx') nofun, w, _, rfl, hfirst⟩

/-- The page that a written page becomes when its next pointer has been set. -/
def WrittenPage.linkTo (w : WrittenPage) (rest : List WrittenPage) : BMBitmapPage :=
  match rest with
  | next :: _ => { w.page with bitmapNext := some next.blkno }
  | [] => w.page

theorem applyPages_frame (idx : BitmapIndex) (ws : List WrittenPage) :
    (applyPages idx (ws.map fun p => (p.blkno, p.page))).lov = idx.lov ∧
    (applyPages idx (ws.map fun p => (p.blkno, p.page))).pages.length = idx.pages.length ∧
    ∀ b, b ∉ ws.map blkno →
      (applyPages idx (ws.map fun p => (p.blkno, p.page))).pages[b]? = idx.pages[b]? := by
  induction ws generalizing idx with
  | nil => exact ⟨rfl, rfl, fun _ _ => rfl⟩
  | cons w ws ih =>
    cases ws with
    | nil =>
      refine ⟨rfl, length_set, fun b hb => getElem?_set_ne fun heq => hb ?_⟩
      rw [← heq]
      exact mem_cons_self
    | cons v ws =>
      obtain ⟨hlov, hlen, hpages⟩ :=
        ih (idx.setPage w.blkno { w.page with bitmapNext := some v.blkno })
      refine ⟨hlov, hlen.trans length_set, fun b hb => ?_⟩
      rw [map_cons, mem_cons, not_or] at hb
      exact (hpages b hb.2).trans (getElem?_set_ne fun heq => hb.1 heq.symm)

theorem applyPages_get
    (hsorted : ws.Pairwise fun v w => v.blkno < w.blkno)
    (hlt : ∀ w ∈ ws, w.blkno < idx.pages.length) {pre rest : List WrittenPage}
    (hws : ws = pre ++ w :: rest) :
    (applyPages idx (ws.map fun p => (p.blkno, p.page))).pages[w.blkno]? =
    some (w.linkTo rest) := by
  induction ws generalizing idx pre with
  | nil => simp at hws
  | cons u ws ih =>
    obtain ⟨hu, hsorted'⟩ := pairwise_cons.1 hsorted
    have hult := hlt u mem_cons_self
    cases pre with
    | nil =>
      obtain ⟨rfl, rfl⟩ := cons.inj hws
      cases ws with
      | nil => exact getElem?_set_self hult
      | cons v ws =>
        have hnot : u.blkno ∉ (v :: ws).map blkno := by
          intro hmem
          obtain ⟨x, hx, hxu⟩ := mem_map.1 hmem
          exact absurd (hu x hx) (by omega)
        refine ((applyPages_frame (idx.setPage u.blkno { u.page with bitmapNext := some v.blkno })
          (v :: ws)).2.2 _ hnot).trans ?_
        exact getElem?_set_self hult
    | cons u' pre =>
      rw [cons_append] at hws
      obtain ⟨rfl, rfl⟩ := cons.inj hws
      have hne : pre ++ w :: rest ≠ [] := by simp
      obtain ⟨v, ws', hv⟩ := exists_cons_of_ne_nil hne
      have hstep : applyPages idx ((u :: (pre ++ w :: rest)).map fun p => (p.blkno, p.page)) =
          applyPages (idx.setPage u.blkno { u.page with bitmapNext := some v.blkno })
            ((pre ++ w :: rest).map fun p => (p.blkno, p.page)) := by
        rw [hv]
        rfl
      rw [hstep]
      refine ih hsorted' (fun x hx => ?_) rfl
      show x.blkno < (idx.pages.set _ _).length
      rw [length_set]
      exact hlt x (mem_cons_of_mem _ hx)

/-! ## One logged write -/

/-- The index and the record after a write. -/
structure Logged (idx : BitmapIndex) (w : LoggedWrite) (idx' : BitmapIndex) (xlrec : XlBitmapwords)
    (ws : List WrittenPage) : Prop where
  ok : ∀ v ∈ ws, v.Ok idx
  sorted : ws.Pairwise fun u v => u.blkno < v.blkno
  tailNew : ∀ v ∈ ws.tail, v.isNew = true
  nonempty : ws ≠ []
  get : ∀ pre v rest, ws = pre ++ v :: rest → idx'.pages[v.blkno]? = some (v.linkTo rest)
  frame : ∀ b, b ∉ ws.map blkno → idx'.pages[b]? = idx.pages[b]?
  tail : idx.lov.bmLovHead ≠ none → ∃ v, ws.head? = some v ∧ idx.lov.bmLovTail = some v.blkno
  lov : idx'.lov = BMLOVItem.setLast { idx.lov with
    bmLovHead := if idx.lov.bmLovHead.isNone then (ws.map blkno).head? else idx.lov.bmLovHead
    bmLovTail := (ws.map blkno).getLast? } w.buf w.buf.lastTid
  xlrec : xlrec = logBitmapwords idx' w idx.lov.bmLovHead.isNone ws

theorem writeLogged_spec {w : LoggedWrite} (h : idx.Linked)
    (hw : writeLogged idx w = .ok (idx', xlrec)) : ∃ ws, Logged idx w idx' xlrec ws := by
  unfold writeLogged at hw
  cases hpages : writePagesLogged w.buf MAX_BITMAP_PAGES_PER_INSERT idx true 0 with
  | error e =>
    rw [hpages] at hw
    cases hw
  | ok r =>
    obtain ⟨idx₁, ws⟩ := r
    rw [hpages] at hw
    obtain ⟨hwritten, v, rest, hws, hfirst⟩ := writePagesLogged_spec h hpages
    obtain ⟨hlov, -, hframe⟩ := applyPages_frame idx₁ ws
    obtain ⟨hidx, hrec⟩ := Prod.mk.inj (Except.ok.inj hw)
    have hpagesEq : idx'.pages = (applyPages idx₁ (ws.map fun p => (p.blkno, p.page))).pages := by
      rw [← hidx]
    refine ⟨ws, hwritten.ok, hwritten.sorted, hwritten.tailNew, by rw [hws]; simp, ?_, ?_, ?_, ?_,
      ?_⟩
    · intro pre u rest' hsplit
      rw [hpagesEq]
      exact applyPages_get hwritten.sorted hwritten.lt hsplit
    · intro b hb
      rw [hpagesEq, hframe b hb]
      obtain ⟨k, hk⟩ := hwritten.pages
      by_cases hbl : b < idx.pages.length
      · rw [hk, getElem?_append_left hbl]
      have hout : ¬ b < idx₁.pages.length := by
        intro hlt
        obtain ⟨u, hu, hub, -⟩ := hwritten.blocks b (by omega) hlt
        exact hb (mem_map.2 ⟨u, hu, hub⟩)
      rw [getElem?_eq_none (by omega), getElem?_eq_none (by omega)]
    · intro hhead
      refine ⟨v, by rw [hws]; rfl, ?_⟩
      rcases hfirst with ⟨-, -, htail⟩ | ⟨hnot, -⟩
      · exact htail
      · exact absurd ⟨rfl, hhead⟩ hnot
    · rw [← hidx, hlov, hwritten.lov]
    · rw [← hrec, ← hidx]

theorem linkTo_sized (hv : v.Ok idx) (rest : List WrittenPage) : (v.linkTo rest).Sized := by
  obtain ⟨before, -, -, hnoted, -⟩ := hv.written
  cases rest with
  | nil => exact hnoted.sized
  | cons u rest => exact ⟨hnoted.sized.hwords, hnoted.sized.cwords, hnoted.sized.used⟩

theorem linkTo_last (hv : v.Ok idx) : (v.linkTo []).bitmapNext = none := by
  obtain ⟨before, -, hnext, hnoted, -⟩ := hv.written
  exact hnoted.next.trans hnext

theorem Logged.linked {w : LoggedWrite} (h : idx.Linked) (hl : Logged idx w idx' xlrec ws) :
    idx'.Linked := by
  refine ⟨fun b page hget => ?_, fun _ => ?_⟩
  · by_cases hb : b ∈ ws.map blkno
    · obtain ⟨v, hv, rfl⟩ := mem_map.1 hb
      obtain ⟨pre, rest, hsplit⟩ := append_of_mem hv
      rw [hl.get pre v rest hsplit] at hget
      obtain rfl := Option.some.inj hget
      exact linkTo_sized (hl.ok v hv) rest
    · rw [hl.frame b hb] at hget
      exact h.sized b page hget
  · obtain ⟨pre, v, hsplit⟩ := eq_nil_or_concat ws |>.resolve_left hl.nonempty
    rw [concat_eq_append] at hsplit
    have hv : v ∈ ws := by
      rw [hsplit]
      simp
    refine ⟨v.blkno, v.linkTo [], ?_, hl.get pre v [] hsplit, linkTo_last (hl.ok v hv)⟩
    rw [hl.lov, hsplit]
    simp [BMLOVItem.setLast]

end PolemoDB.Bitmap
