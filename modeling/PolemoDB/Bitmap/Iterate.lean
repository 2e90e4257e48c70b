import PolemoDB.Lib.Loop
import PolemoDB.Bitmap.Word

/-!
# Iterating over a batch of bitmap words (`_bitmap_findnexttid`)

* `bitmapFindnexttids` — the resumable scan: zero words are skipped, fill words of ones are expanded
  in place, literal words are searched bit by bit, until the batch of tids is full.
* `bitmapCatchupToNextTid` — the catch-up that runs first when the scan still stands at `startNo`.

Tids are 64-bit numbers; sums are reduced modulo `2^64` (`wrap`).
-/

namespace PolemoDB.Bitmap

open PolemoDB.Lib

/-- Arithmetic of `uint64`. -/
def wrap (n : Nat) : Nat := n % 2 ^ 64

/-- `BMBatchWords`, as far as the iteration reads it. -/
structure BMBatchWords where
  firstTid : Nat
  startNo : Nat
  nwords : Nat
  hwords : List BM_HRL_WORD
  cwords : List BM_HRL_WORD
  deriving DecidableEq, Repr

/-- `BMIterateResult`; `nextTids` holds the `numOfTids` entries that have been filled. -/
structure BMIterateResult where
  nextTid : Nat
  lastScanPos : Nat
  lastScanWordNo : Nat
  nextTids : List Nat
  nextTidLoc : Nat
  deriving DecidableEq, Repr

def BMIterateResult.numOfTids (r : BMIterateResult) : Nat := r.nextTids.length

/-- The two objects a scan works on. -/
structure Scan where
  words : BMBatchWords
  result : BMIterateResult
  deriving DecidableEq, Repr

/-- Content word `no` of the batch. -/
def BMBatchWords.cword (b : BMBatchWords) (no : Nat) : BM_HRL_WORD := b.cwords.getD no 0

/-- Content word `no` with its header bit. -/
def BMBatchWords.hrl (b : BMBatchWords) (no : Nat) : HrlWord := ⟨isFillWord b.hwords no, b.cword no⟩

/-- The loop of `_bitmap_find_bitset`; `n` positions are left. -/
def findBitsetLoop (word : BM_HRL_WORD) : Nat → Nat → Nat
  | 0, _ => 0
  | n + 1, pos =>
    if word &&& 1#64 <<< (pos - 1) ≠ 0 then pos else findBitsetLoop word n (pos + 1)

/-- `_bitmap_find_bitset`: the next set bit after position `lastPos`, positions counted from one;
zero if there is none. -/
def bitmapFindBitset (word : BM_HRL_WORD) (lastPos : Nat) : Nat :=
  findBitsetLoop word (64 - lastPos) (lastPos + 1)

/-- Leave the current word, `bits` bits long. -/
def Scan.nextWord (s : Scan) (bits : Nat) : Scan := ⟨{ s.words with nwords := s.words.nwords - 1 },
    { s.result with
      nextTid := wrap (s.result.nextTid + bits)
      lastScanWordNo := s.result.lastScanWordNo + 1
      lastScanPos := 0 }⟩

def Scan.expandFillWord (s : Scan) : Scan :=
  let no := s.result.lastScanWordNo
  let tids := (List.range 64).map fun i => wrap (s.result.nextTid + i)
  ⟨{ s.words with cwords := s.words.cwords.set no (s.words.cword no - 1) }, { s.result with
      nextTids := s.result.nextTids ++ tids
      nextTid := wrap (s.result.nextTid + 64) }⟩

/-- The loop over the `nfillwords` words left of a fill word of ones; the number is what remains. -/
def expandFill (maxTids : Nat) : Nat → Scan → Scan × Nat
  | 0, s => (s, 0)
  | n + 1, s =>
    if s.result.numOfTids + 64 ≤ maxTids then expandFill maxTids n s.expandFillWord else (s, n + 1)

/-- The search loop of a literal word, from position `oldScanPos` on. -/
def searchLiteral (maxTids : Nat) : Nat → Nat → Scan → Scan
  | 0, _, s => s
  | n + 1, oldScanPos, s =>
    if s.result.numOfTids < maxTids then
      let pos := bitmapFindBitset (s.words.cword s.result.lastScanWordNo) oldScanPos
      if pos ≠ 0 then
        searchLiteral maxTids n pos
          ⟨s.words, { s.result with
            lastScanPos := pos
            nextTids := s.result.nextTids ++ [wrap (s.result.nextTid + (pos - 1))] }⟩
      else s.nextWord 64
    else s

/-- One round of the main loop of `_bitmap_findnexttids`. -/
def findnexttidsRound (maxTids : Nat) (s : Scan) : Option (Scan ⊕ Scan) :=
  if s.words.nwords > 0 ∧ s.result.numOfTids < maxTids then
    let no := s.result.lastScanWordNo
    let word := s.words.cword no
    if s.result.lastScanPos = 0 ∧
        ((isFillWord s.words.hwords no = true ∧ getFillBit word = false) ∨ word = 0) then
      some (.inl (s.nextWord ((if word = 0 then 1 else fillLength word) * 64)))
    else if isFillWord s.words.hwords no = true ∧ getFillBit word = true then
      match expandFill maxTids (fillLength word) s with
      | (s, 0) => some (.inl (s.nextWord 0))
      | (s, _ + 1) => some (.inr s)
    else some (.inl (searchLiteral maxTids 65 s.result.lastScanPos s))
  else some (.inr s)

/-- One round of `_bitmap_catchup_to_next_tid`; the number of tids skipped in the word is subtracted
from a fill word. -/
def catchupRound (s : Scan) : Option (Scan ⊕ Scan) :=
  if s.words.nwords > 0 ∧ s.words.firstTid < s.result.nextTid then
    let no := s.result.lastScanWordNo
    let word := s.words.cword no
    let next (firstTid : Nat) (cwords : List BM_HRL_WORD) (nextTid : Nat) : Scan :=
      ⟨{ s.words with firstTid := firstTid, cwords := cwords, nwords := s.words.nwords - 1 },
        { s.result with lastScanWordNo := no + 1, nextTid := nextTid }⟩
    if isFillWord s.words.hwords no = true then
      if word = 0 then
        let firstTid := wrap (s.words.firstTid + 64)
        some (.inl (next firstTid s.words.cwords
          (if firstTid > s.result.nextTid then firstTid else s.result.nextTid)))
      else
        let fillToUse := min ((s.result.nextTid - s.words.firstTid) / 64 + 1) (fillLength word)
        let cwords := s.words.cwords.set no (word - BitVec.ofNat 64 fillToUse)
        let firstTid := wrap (s.words.firstTid + fillToUse * 64)
        if fillLength word - fillToUse = 0 then
          some (.inl (next firstTid cwords s.result.nextTid))
        else
          let s' : Scan := ⟨{ s.words with firstTid := firstTid, cwords := cwords }, s.result⟩
          if firstTid ≥ s.result.nextTid then some (.inr s')
          else some (.inl ⟨s'.words, { s.result with lastScanWordNo := no + 1 }⟩)
    else some (.inl (next (wrap (s.words.firstTid + 64)) s.words.cwords s.result.nextTid))
  else some (.inr s)

def bitmapCatchupToNextTid (fuel : Nat) (s : Scan) : Option Scan := loop catchupRound fuel s

def bitmapFindnexttids (fuel maxTids : Nat) (s : Scan) : Option Scan :=
  let s : Scan := ⟨s.words, { s.result with nextTids := [], nextTidLoc := 0 }⟩
  if s.result.lastScanWordNo = s.words.startNo ∧ s.words.firstTid < s.result.nextTid then
    match bitmapCatchupToNextTid fuel s with
    | none => none
    | some s => loop (findnexttidsRound maxTids) fuel s
  else loop (findnexttidsRound maxTids) fuel s

/-- `_bitmap_findnexttid`: the scan afterwards and the value returned. -/
def bitmapFindnexttid (fuel : Nat) (s : Scan) : Option (Scan × Nat) :=
  let take (s : Scan) : Scan × Nat :=
    if s.result.nextTidLoc < s.result.numOfTids then
      (⟨s.words, { s.result with nextTidLoc := s.result.nextTidLoc + 1 }⟩,
        s.result.nextTids.getD s.result.nextTidLoc 0)
    else (s, 0)
  if s.result.nextTidLoc ≥ s.result.numOfTids then
    (bitmapFindnexttids fuel BM_BATCH_TIDS s).map take
  else some (take s)

def bitmapBeginIterate (words : BMBatchWords) (result : BMIterateResult) : BMIterateResult :=
  { result with lastScanPos := 0, lastScanWordNo := words.startNo, nextTids := [], nextTidLoc := 0 }

/-- One call of a caller that stops when `nwords` is zero and no tid is left.  A call that delivers
a tid leaves `nextTidLoc` behind it. -/
def drainRound (fuel : Nat) (s : Scan × List Nat) : Option ((Scan × List Nat) ⊕ List Nat) :=
  if s.1.words.nwords = 0 ∧ s.1.result.nextTidLoc ≥ s.1.result.numOfTids then some (.inr s.2)
  else
    match bitmapFindnexttid fuel s.1 with
    | none => none
    | some (s', tid) => some (.inl (s', if s'.result.nextTidLoc = 0 then s.2 else s.2 ++ [tid]))

/-- All tids delivered by repeated calls. -/
def drain (fuel : Nat) (s : Scan) : Option (List Nat) := loop (drainRound fuel) fuel (s, [])

end PolemoDB.Bitmap
