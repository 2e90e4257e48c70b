import PolemoDB.Bitmap.Page

/-!
# The pages of a bitmap vector (`bitmapinsert.c`)

A bitmap vector is a LOV item (head and tail of a chain of bitmap pages, the last complete word, the
last word) together with the pages of its chain.  Appended words go to the tail of the chain at
first and then to new pages.  Tid numbers and tid locations are natural numbers.  Locks and the byte
counts of the buffers are left out.
-/

namespace PolemoDB.Bitmap

open PolemoDB.Lib

/-- `BMLOVItemData`. -/
structure BMLOVItem where
  bmLovHead : Option Nat
  bmLovTail : Option Nat
  bmLastCompword : BM_HRL_WORD
  bmLastWord : BM_HRL_WORD
  bmLastTidLocation : Nat
  bmLastSetbit : Nat
  lovWordsHeader : Nat
  deriving DecidableEq, Repr

/-- The blocks of the index relation and the LOV item of one vector. -/
structure BitmapIndex where
  pages : List BMBitmapPage
  lov : BMLOVItem
  deriving DecidableEq, Repr

/-- How a call can end without a result. -/
inductive Failure where
  /-- `could not find bitmap page containing tid` -/
  | noBitmapPage (tidnum : Nat)
  /-- `could not find bitmap word for tid` -/
  | noBitmapWord (tidnum : Nat)
  /-- `incorrect header bit found in bitmap index` -/
  | incorrectHeaderBit
  /-- `too many bitmap pages in one insert batch into bitmap index` -/
  | tooManyPages
  /-- A block that the relation does not have is read. -/
  | noBlock (blkno : Nat)
  /-- The LOV item has a first page and no last page. -/
  | noTail
  /-- A chain of pages is followed for ever. -/
  | diverges
  /-- The arrays of a buffer are freed a second time. -/
  | doubleFree
  deriving DecidableEq, Repr

def MAX_BITMAP_PAGES_PER_INSERT : Nat := 10

variable (idx : BitmapIndex)

/-- `_bitmap_getbuf` for an existing block. -/
def BitmapIndex.getbuf (blkno : Nat) : Except Failure BMBitmapPage :=
  match idx.pages[blkno]? with
  | some page => .ok page
  | none => .error (.noBlock blkno)

/-- Write a page back. -/
def BitmapIndex.setPage (blkno : Nat) (page : BMBitmapPage) : BitmapIndex :=
  { idx with pages := idx.pages.set blkno page }

/-- `_bitmap_getbuf` with `P_NEW` and `_bitmap_init_bitmappage`: the new block is
`idx.pages.length`. -/
def BitmapIndex.newPage : BitmapIndex :=
  { idx with pages := idx.pages ++ [bitmapInitBitmappage] }

/-! ## Appending words -/

/-- The page that the next words go to, with its block: the tail of the chain at first, if there is
one, and a new page otherwise. -/
def pageToWrite (isFirst : Bool) : Except Failure (BitmapIndex × Nat × BMBitmapPage) :=
  if isFirst ∧ idx.lov.bmLovHead ≠ none then
    match idx.lov.bmLovTail with
    | some tail =>
      match idx.getbuf tail with
      | .error e => .error e
      | .ok page => .ok (idx, tail, page)
    | none => .error .noTail
  else .ok (idx.newPage, idx.pages.length, bitmapInitBitmappage)

/-- Put the written pages into the relation, each pointing to the next one. -/
def applyPages (idx : BitmapIndex) : List (Nat × BMBitmapPage) → BitmapIndex
  | [] => idx
  | [(blkno, page)] => idx.setPage blkno page
  | (blkno, page) :: (next, page') :: rest =>
    applyPages (idx.setPage blkno { page with bitmapNext := some next }) ((next, page') :: rest)

/-- The last two words and the last set bit of a LOV item, from a buffer. -/
def BMLOVItem.setLast (lov : BMLOVItem) (buf : BMTIDBuffer) (setbit : Nat) : BMLOVItem := { lov with
    bmLastCompword := buf.lastCompword
    bmLastWord := buf.lastWord
    lovWordsHeader := if buf.isLastCompwordFill then 2 else 0
    bmLastSetbit := setbit
    bmLastTidLocation := setbit - setbit % 64 }

end PolemoDB.Bitmap
