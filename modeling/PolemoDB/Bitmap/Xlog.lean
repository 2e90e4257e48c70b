import PolemoDB.Bitmap.Insert

/-!
# Write-ahead logging of appended bitmap words

`_bitmap_write_new_bitmapwords` logs one record for all pages it writes and for the LOV item
(`_bitmap_log_bitmapwords`); `_bitmap_xlog_insert_bitmapwords` replays it.

* `redoBitmapwords` — the replay of one record on pages that carry the position of the last record
  applied to them. A block that has an image in the record is restored from it, a block that is at
  or past the record is left alone, and the others are changed by the data in the record.
-/

namespace PolemoDB.Bitmap

open PolemoDB.Lib

/-! ## The record -/

/-- `xl_bm_bitmapwords_perpage` and the words that follow it. -/
structure XlPerpage where
  bmpBlkno : Nat
  bmpLastTid : Nat
  bmpStartHwordNo : Nat
  bmpNumHwords : Nat
  bmpStartCwordNo : Nat
  bmpNumCwords : Nat
  bmNextBlkno : Nat
  hwords : List BM_HRL_WORD
  cwords : List BM_HRL_WORD
  deriving DecidableEq, Repr

/-- A block that a record refers to, with its image or the data to change it by. -/
structure XlBlock where
  blkno : Nat
  image : Option BMBitmapPage
  data : XlPerpage
  deriving DecidableEq, Repr

/-- `xl_bm_bitmapwords` with the blocks of the record; block 0 is the page of the LOV item. -/
structure XlBitmapwords where
  bmInitFirstPage : Bool
  bmLastCompword : BM_HRL_WORD
  bmLastWord : BM_HRL_WORD
  lovWordsHeader : Nat
  bmLastSetbit : Nat
  lovImage : Option BMLOVItem
  blocks : List XlBlock
  deriving DecidableEq, Repr

/-! ## Logging -/

/-- What `_bitmap_write_bitmapwords_on_page` notes in the record of a page. The record was allocated
by `palloc0`, so the other fields are zero. -/
def notePerpage (blkno : Nat) (page : BMBitmapPage) (buf : BMTIDBuffer) (startWordNo : Nat) :
    XlPerpage :=
  let cwords := page.hrlWordsUsed
  let wordsWritten := min (buf.curword - startWordNo) (BM_NUM_OF_HRL_WORDS_PER_PAGE - cwords)
  if wordsWritten = 0 then
    { bmpBlkno := blkno
      bmpLastTid := page.lastTidLocation
      bmpStartHwordNo := 0
      bmpNumHwords := 0
      bmpStartCwordNo := cwords
      bmpNumCwords := 0
      bmNextBlkno := 0
      hwords := []
      cwords := [] }
  else
    let finalStartHwordNo := cwords / 64
    let finalEndHwordNo := (cwords + wordsWritten - 1) / 64
    { bmpBlkno := blkno
      bmpLastTid := buf.lastTids.getD (startWordNo + wordsWritten - 1) 0
      bmpStartHwordNo := finalStartHwordNo
      bmpNumHwords := finalEndHwordNo + 1 - finalStartHwordNo
      bmpStartCwordNo := cwords
      bmpNumCwords := wordsWritten
      bmNextBlkno := 0
      hwords := []
      cwords := [] }

/-- A page that is written, its block, whether it is a new block, and its part of the record. -/
structure WrittenPage where
  blkno : Nat
  isNew : Bool
  page : BMBitmapPage
  xlrec : XlPerpage

/-- The loop of `_bitmap_write_new_bitmapwords` with the records of the pages; at most `n` pages. -/
def writePagesLogged (buf : BMTIDBuffer) : Nat → BitmapIndex → Bool → Nat →
    Except Failure (BitmapIndex × List WrittenPage)
  | 0, _, _, _ => .error .tooManyPages
  | n + 1, idx, isFirst, startWordno =>
    match pageToWrite idx isFirst with
    | .error e => .error e
    | .ok (idx₁, blkno, page) =>
      let (page', wordsWritten) := writeBitmapwordsOnPage page buf startWordno
      let written : WrittenPage :=
        { blkno := blkno
          isNew := !(isFirst && idx.lov.bmLovHead.isSome)
          page := page'
          xlrec := notePerpage blkno page buf startWordno }
      if buf.curword - (startWordno + wordsWritten) > 0 then
        match writePagesLogged buf n idx₁ false (startWordno + wordsWritten) with
        | .error e => .error e
        | .ok (idx₂, rest) => .ok (idx₂, written :: rest)
      else .ok (idx₁, [written])

/-- A write, with the blocks that get an image in the record: the LOV page, and the pages by their
number in the record. New pages get one in any case. -/
structure LoggedWrite where
  buf : BMTIDBuffer
  lovImage : Bool
  pageImage : Nat → Bool

variable (idx : BitmapIndex)

/-- A block of the record; `idx` is the index after the write and `next` the block of the page
behind. -/
def logBlock (image : Bool) (w : WrittenPage) (next : Option Nat) : XlBlock :=
  let page := idx.pages.getD w.blkno bitmapInitBitmappage
  let xlrec := w.xlrec
  { blkno := w.blkno
    image := if image then some page else none
    data := { xlrec with
      bmNextBlkno := next.getD xlrec.bmNextBlkno
      hwords := (page.hwords.drop xlrec.bmpStartHwordNo).take xlrec.bmpNumHwords
      cwords := (page.cwords.drop xlrec.bmpStartCwordNo).take xlrec.bmpNumCwords } }

/-- The blocks of the record, from page number `n` on. -/
def logPages (idx : BitmapIndex) (pageImage : Nat → Bool) : Nat → List WrittenPage → List XlBlock
  | _, [] => []
  | n, w :: rest =>
    logBlock idx (pageImage n || w.isNew) w (rest.head?.map WrittenPage.blkno) ::
      logPages idx pageImage (n + 1) rest

/-- `_bitmap_log_bitmapwords`. -/
def logBitmapwords (w : LoggedWrite) (initFirstPage : Bool)
    (written : List WrittenPage) : XlBitmapwords :=
  { bmInitFirstPage := initFirstPage
    bmLastCompword := w.buf.lastCompword
    bmLastWord := w.buf.lastWord
    lovWordsHeader := if w.buf.isLastCompwordFill then 2 else 0
    bmLastSetbit := w.buf.lastTid
    lovImage := if w.lovImage then some idx.lov else none
    blocks := logPages idx w.pageImage 0 written }

/-- `_bitmap_write_new_bitmapwords` for a buffer that has words, with its record. -/
def writeLogged (w : LoggedWrite) : Except Failure (BitmapIndex × XlBitmapwords) :=
  match writePagesLogged w.buf MAX_BITMAP_PAGES_PER_INSERT idx true 0 with
  | .error e => .error e
  | .ok (idx₁, written) =>
    let idx₁ := applyPages idx₁ (written.map fun p => (p.blkno, p.page))
    let firstPageNeedsInit := idx.lov.bmLovHead.isNone
    let idx₁ : BitmapIndex := { idx₁ with lov := BMLOVItem.setLast { idx₁.lov with
      bmLovHead :=
        if firstPageNeedsInit then (written.map WrittenPage.blkno).head? else idx.lov.bmLovHead
      bmLovTail := (written.map WrittenPage.blkno).getLast? } w.buf w.buf.lastTid }
    .ok (idx₁, logBitmapwords idx₁ w firstPageNeedsInit written)

/-! ## Replay -/

/-- The pages of a standby or of a recovery; each carries the position of the last record applied to
it. -/
structure Standby where
  pages : Nat → Option (Nat × BMBitmapPage)
  lov : Nat × BMLOVItem

inductive XLogRedoAction where
  | needsRedo
  | done
  | restored
  | notFound
  deriving DecidableEq, Repr

/-- `XLogReadBufferForRedo`: an image is always restored, otherwise the position of the page
decides. -/
def readBufferForRedo {α : Type} (lsn : Nat) (image : Option α) (page : Option (Nat × α)) :
    XLogRedoAction :=
  match image, page with
  | some _, _ => .restored
  | none, none => .notFound
  | none, some (pageLsn, _) => if pageLsn ≥ lsn then .done else .needsRedo

/-- The changes to a bitmap page that needs redo. -/
def redoPerpage (data : XlPerpage) (page : BMBitmapPage) : BMBitmapPage :=
  { hwords := memcpyAt page.hwords data.bmpStartHwordNo data.hwords
    cwords := memcpyAt page.cwords data.bmpStartCwordNo data.cwords
    bitmapNext := some data.bmNextBlkno
    lastTidLocation := data.bmpLastTid
    hrlWordsUsed := data.bmpStartCwordNo + data.bmpNumCwords }

/-- A bitmap page after the record has been applied to it. -/
def redoBlock (lsn : Nat) (blk : XlBlock) (page : Option (Nat × BMBitmapPage)) :
    Option (Nat × BMBitmapPage) :=
  match readBufferForRedo lsn blk.image page with
  | .restored => blk.image.map (lsn, ·)
  | .needsRedo => page.map fun p => (lsn, redoPerpage blk.data p.2)
  | .done => page
  | .notFound => page

/-- The loop over the pages of a record; the number is `last_blkno`. -/
def redoBlocks (lsn : Nat) : List XlBlock → Standby × Nat → Standby × Nat
  | [], s => s
  | blk :: blks, (sb, lastBlkno) =>
    let page := sb.pages blk.blkno
    let lastBlkno :=
      if readBufferForRedo lsn blk.image page = .needsRedo then blk.data.bmpBlkno else lastBlkno
    redoBlocks lsn blks
      ({ sb with pages := fun b => if b = blk.blkno then redoBlock lsn blk page else sb.pages b },
      lastBlkno)

/-- The changes to the LOV item if its page needs redo. -/
def redoLovItem (xlrec : XlBitmapwords) (firstBlkno lastBlkno : Nat) (lov : BMLOVItem) :
    BMLOVItem :=
  { lov with
    bmLastCompword := xlrec.bmLastCompword
    bmLastWord := xlrec.bmLastWord
    lovWordsHeader := xlrec.lovWordsHeader
    bmLastSetbit := xlrec.bmLastSetbit
    bmLastTidLocation := xlrec.bmLastSetbit - xlrec.bmLastSetbit % 64
    bmLovTail := some lastBlkno
    bmLovHead := if xlrec.bmInitFirstPage then some firstBlkno else lov.bmLovHead }

/-- The LOV item after the record has been applied to its page. -/
def redoLov (lsn : Nat) (xlrec : XlBitmapwords) (firstBlkno lastBlkno : Nat)
    (lov : Nat × BMLOVItem) : Nat × BMLOVItem :=
  match xlrec.lovImage with
  | some image => (lsn, image)
  | none => if lov.1 ≥ lsn then lov else (lsn, redoLovItem xlrec firstBlkno lastBlkno lov.2)

/-- `_bitmap_xlog_insert_bitmapwords`. -/
def redoBitmapwords (lsn : Nat) (xlrec : XlBitmapwords) (sb : Standby) : Standby :=
  match xlrec.blocks with
  | [] => sb  -- excluded by `Assert(xlrec->bm_num_pages > 0)`
  | blk :: _ =>
    let (sb, lastBlkno) := redoBlocks lsn xlrec.blocks (sb, blk.blkno)
    { sb with lov := redoLov lsn xlrec blk.blkno lastBlkno sb.lov }

end PolemoDB.Bitmap
