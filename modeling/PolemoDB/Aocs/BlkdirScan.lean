import Mathlib.Tactic.Ring
import PolemoDB.AppendOnly.BlockDirectory

/-!
# Sampling a column-oriented table through the block directory (`aocs_blkdirscan_get_target_tuple`)

The rows of a sample are given by their logical numbers, in increasing order.  The segment file is
found by its number of rows, the row by stepping through the block directory entries of a column.
The position in the entries and the number of rows before it are kept for the next call; the
minipage at the position is in the block directory of the fetch descriptor, which reads minipages on
its own when the row is fetched.

* `sample_right` — a call gives the right row if the first column that is not dropped lists all rows
  of the segment file.
-/

namespace PolemoDB.Aocs

open PolemoDB.AppendOnly List Function

/-! ## The code -/

/-- A column, with its minipages for a segment file in the order of the index. -/
structure SampleColumn where
  attisdropped : Bool
  minipages : Nat → List (List MinipageEntry)

/-- A segment file. -/
structure SampleSeg where
  segno : Nat
  totalTupcount : Nat
deriving DecidableEq, Repr

structure SampleTable where
  columns : List SampleColumn
  seginfo : List SampleSeg

/-- `AOBlkDirScanData`; `sysscan` are the tuples that the index scan has still to return,
`minipages` those of `blkdir`. -/
structure AOBlkDirScan where
  segno : Option Nat
  colgroupno : Nat
  mpentryno : Option Nat
  sysscan : List (List MinipageEntry)
  minipages : Nat → List MinipageEntry

/-- The `for` loop of `AOBlkDirScan_GetRowNum`: row number, entry and start row, or the start row
for the next minipage. -/
def searchEntries (targrow : Int) (i : Nat) (startrow : Int) : List MinipageEntry →
    (Int × Nat × Int) ⊕ Int
  | [] => .inr startrow
  | e :: es =>
    if startrow + e.rowCount - 1 ≥ targrow then
      .inl (e.firstRowNum + (targrow - startrow), i, startrow)
    else searchEntries targrow (i + 1) (startrow + e.rowCount) es

/-- The `while` loop of `AOBlkDirScan_GetRowNum` from where a new minipage is needed. -/
def searchTuples (targrow : Int) (colgroupno : Nat) (s : AOBlkDirScan) (startrow : Int) :
    List (List MinipageEntry) → Option Int × AOBlkDirScan × Int
  | [] => (none, { s with segno := none, colgroupno := 0, mpentryno := none, sysscan := [] },
    startrow)
  | mp :: rest =>
    let s := { s with minipages := update s.minipages colgroupno mp }
    match searchEntries targrow 0 startrow mp with
    | .inl (rownum, i, startrow) =>
      (some rownum, { s with mpentryno := some i, sysscan := rest }, startrow)
    | .inr startrow => searchTuples targrow colgroupno s startrow rest

/-- The first part of `AOBlkDirScan_GetRowNum`: a new index scan for another segment file or column.
-/
def AOBlkDirScan.begin (s : AOBlkDirScan) (c : SampleColumn) (targsegno colgroupno : Nat) :
    AOBlkDirScan :=
  if s.segno ≠ some targsegno ∨ s.colgroupno ≠ colgroupno then
    { s with
      segno := some targsegno, colgroupno := colgroupno, mpentryno := none,
      sysscan := c.minipages targsegno }
  else s

/-- `AOBlkDirScan_GetRowNum`, with the new value of `*startrow`; `none` is the row number `-1`. -/
def AOBlkDirScan.getRowNum (s : AOBlkDirScan) (c : SampleColumn) (targsegno colgroupno : Nat)
    (targrow startrow : Int) : Option Int × AOBlkDirScan × Int :=
  let s := s.begin c targsegno colgroupno
  match s.mpentryno with
  | none => searchTuples targrow colgroupno s startrow s.sysscan
  | some i =>
    match searchEntries targrow i startrow ((s.minipages colgroupno).drop i) with
    | .inl (rownum, i, startrow) => (some rownum, { s with mpentryno := some i }, startrow)
    | .inr startrow => searchTuples targrow colgroupno s startrow s.sysscan

/-- `AOCSScanDesc`. -/
structure SampleScan where
  curSeg : Nat
  segfirstrow : Int
  segrowsprocessed : Int
  blkdirscan : AOBlkDirScan

open SampleScan

/-- The scan before the first call. -/
def SampleScan.init : SampleScan := ⟨0, 0, 0, ⟨none, 0, none, [], fun _ => []⟩⟩

/-- The loop of `aocs_locate_target_segment`, with `segfirstrow` and `segrowsprocessed`. -/
def locateTargetSegment (targrow : Int) (i : Nat) (first processed : Int) :
    List SampleSeg → Option (Nat × SampleSeg) × Int × Int
  | [] => (none, first, processed)
  | seg :: segs =>
    if seg.totalTupcount ≤ 0 then locateTargetSegment targrow (i + 1) first processed segs
    else if first + seg.totalTupcount - 1 ≥ targrow then (some (i, seg), first, processed)
    else locateTargetSegment targrow (i + 1) (first + seg.totalTupcount) 0 segs

/-- The loop over the columns, with the start row of the column that has given the row. -/
def tryColumns (segno : Nat) (targrow rowsprocessed : Int) :
    Nat → List SampleColumn → AOBlkDirScan → Option (Int × Int) × AOBlkDirScan
  | _, [], s => (none, s)
  | col, c :: cs, s =>
    if c.attisdropped then tryColumns segno targrow rowsprocessed (col + 1) cs s
    else
      match s.getRowNum c segno col targrow rowsprocessed with
      | (none, s, _) => tryColumns segno targrow rowsprocessed (col + 1) cs s
      | (some rownum, s, startrow) =>
        if rownum < 0 then tryColumns segno targrow rowsprocessed
          (col + 1) cs s else (some (rownum, startrow), s)

/-- `aocs_blkdirscan_get_target_tuple` up to the tuple id. -/
def SampleScan.getTargetTuple (t : SampleTable) (s : SampleScan) (targrow : Int) :
    Option (Nat × Int) × SampleScan :=
  match locateTargetSegment targrow s.curSeg s.segfirstrow s.segrowsprocessed
    (t.seginfo.drop s.curSeg) with
  | (none, first, processed) =>
    (none, { s with segfirstrow := first, segrowsprocessed := processed })
  | (some (idx, seg), first, processed) =>
    match tryColumns seg.segno targrow (first + processed) 0 t.columns s.blkdirscan with
    | (none, b) => (none, ⟨idx, first, processed, b⟩)
    | (some (rownum, startrow), b) => (some (seg.segno, rownum), ⟨idx, first, startrow - first, b⟩)

/-- What `aocs_fetch` does to the minipages, if it reads them again: those that have the row. -/
def AOBlkDirScan.fetch (s : AOBlkDirScan) (t : SampleTable) (segno : Nat) (rownum : Int) :
    AOBlkDirScan :=
  { s with
    minipages := fun col =>
      (((t.columns[col]?).map (·.minipages segno)).getD []).find? (·.any (·.covers rownum.toNat))
        |>.getD (s.minipages col) }

/-- The calls for the given rows; with each of them, whether its fetch reads the minipages again. -/
def SampleScan.sample (t : SampleTable) : List (Int × Bool) → SampleScan → List (Option (Nat × Int))
  | [], _ => []
  | (targrow, reads) :: calls, s =>
    match s.getTargetTuple t targrow with
    | (none, s) => none :: sample t calls s
    | (some (segno, rownum), s) =>
      let b := if reads then s.blkdirscan.fetch t segno rownum else s.blkdirscan
      some (segno, rownum) :: sample t calls { s with blkdirscan := b }

/-! ## The rows of the entries -/

/-- The row numbers of the entries. -/
def rowsOf (entries : List MinipageEntry) : List Nat := entries.flatMap fun e =>
    List.range' e.firstRowNum e.rowCount

theorem rowsOf_cons (e : MinipageEntry) (es : List MinipageEntry) :
    rowsOf (e :: es) = List.range' e.firstRowNum e.rowCount ++ rowsOf es := flatMap_cons

theorem rowsOf_append (es es' : List MinipageEntry) : rowsOf (es ++ es') = rowsOf es ++
    rowsOf es' := flatMap_append

theorem rowsOf_split (es : List MinipageEntry) (i : Nat) : rowsOf (es.take i) ++
    rowsOf (es.drop i) = rowsOf es := by
  rw [← rowsOf_append, take_append_drop]

theorem mem_rowsOf {es : List MinipageEntry} {r : Nat} : r ∈ rowsOf es ↔
    es.any (·.covers r) = true := by
  simp [rowsOf, MinipageEntry.covers, mem_range'_1]

section Search

variable {targrow startrow : Int}

/-- The entries from a start row on: the one that has the target, or all of them are before it. -/
theorem searchEntries_spec (es : List MinipageEntry) (i : Nat) (h : startrow ≤ targrow) :
    (∃ j k, searchEntries targrow i startrow es =
      .inl (k, i + j, startrow + (rowsOf (es.take j)).length) ∧
      (rowsOf es)[(targrow - startrow).toNat]? = some k.toNat ∧ 0 ≤ k ∧
      k.toNat ∈ rowsOf (es.drop j) ∧ startrow + (rowsOf (es.take j)).length ≤ targrow) ∨
    (searchEntries targrow i startrow es = .inr (startrow + (rowsOf es).length) ∧
      startrow + (rowsOf es).length ≤ targrow) := by
  induction es generalizing i startrow with
  | nil => exact .inr ⟨by simp [searchEntries, rowsOf], by simpa [rowsOf] using h⟩
  | cons e es ih =>
    rw [searchEntries]
    by_cases hhere : startrow + e.rowCount - 1 ≥ targrow
    · rw [if_pos hhere]
      refine .inl ⟨0, e.firstRowNum + (targrow - startrow), by simp [rowsOf], ?_, by omega,
        ?_, by simpa [rowsOf] using h⟩
      · rw [rowsOf_cons, getElem?_append_left (by rw [length_range']; omega),
          getElem?_range' (by omega)]
        exact congrArg some (by omega)
      · rw [drop_zero, rowsOf_cons, mem_append, mem_range'_1]
        exact .inl (by omega)
    · rw [if_neg hhere]
      have hlen : ∀ l, ((rowsOf (e :: l)).length : Int) = e.rowCount + (rowsOf l).length :=
        fun l => by
        rw [rowsOf_cons, length_append, length_range']
        omega
      rcases ih (i + 1) (show startrow + e.rowCount ≤ targrow by omega) with ⟨j, k, heq, hk, hnn,
        hmem, hle⟩ | ⟨heq, hle⟩
      · refine .inl ⟨j + 1, k, ?_, ?_, hnn, hmem, ?_⟩
        · rw [heq, take_succ_cons, hlen, show i + 1 + j = i + (j + 1) by omega, Int.add_assoc]
        · rw [rowsOf_cons, getElem?_append_right (by rw [length_range']; omega), length_range',
            ← hk]
          congr 1
          omega
        · rw [take_succ_cons, hlen]
          omega
      · refine .inr ⟨?_, ?_⟩
        · rw [heq, hlen, Int.add_assoc]
        · rw [hlen]
          omega

end Search

/-! ## The position of the scan -/

/-- The scan is in the minipages of the column, with `p` rows before its entry. -/
structure AOBlkDirScan.At (s : AOBlkDirScan) (segno col : Nat) (pages : List (List MinipageEntry))
    (p : Nat) : Prop where
  segno_eq : s.segno = some segno
  colgroupno_eq : s.colgroupno = col
  position : ∃ before i, pages = before ++ s.minipages col :: s.sysscan ∧ s.mpentryno = some i ∧
    p = (rowsOf before.flatten).length + (rowsOf ((s.minipages col).take i)).length

/-- A search has found the row of the target, and the scan is at its entry. -/
def Finds (targrow base : Int) (segno col : Nat) (pages : List (List MinipageEntry))
    (res : Option Int × AOBlkDirScan × Int) : Prop :=
  ∃ s' p' k, res = (some k, s', base + (p' : Nat)) ∧ s'.At segno col pages p' ∧
    base + (p' : Nat) ≤ targrow ∧ 0 ≤ k ∧
    (rowsOf pages.flatten)[(targrow - base).toNat]? = some k.toNat ∧
    k.toNat ∈ rowsOf (s'.minipages col)

variable {s : AOBlkDirScan} {segno col p : Nat} {c : SampleColumn} {targrow base : Int}
  {pages before rest : List (List MinipageEntry)}

/-- In a minipage from an entry on: the row is found, or all of them are before it. -/
theorem searchEntries_finds (hseg : s.segno = some segno) (hcol : s.colgroupno = col)
    {mp : List MinipageEntry} (hmp : s.minipages col = mp) (hpages : pages = before ++ mp :: rest)
    (i : Nat) (hp : p = (rowsOf before.flatten).length + (rowsOf (mp.take i)).length)
    (hle : base + p ≤ targrow) :
    (∃ k i' start, searchEntries targrow i (base + p) (mp.drop i) = .inl (k, i', start) ∧
      Finds targrow base segno col pages
        (some k, { s with mpentryno := some i', sysscan := rest }, start)) ∨
    searchEntries targrow i (base + p) (mp.drop i) =
        .inr (base + (rowsOf (before ++ [mp]).flatten).length) ∧
      base + (rowsOf (before ++ [mp]).flatten).length ≤ targrow := by
  subst hmp
  have hsplit := rowsOf_split (s.minipages col) i
  have hend : (rowsOf (before ++ [s.minipages col]).flatten).length =
      p + (rowsOf ((s.minipages col).drop i)).length := by
    rw [flatten_append, flatten_singleton, rowsOf_append, ← hsplit, hp]
    simp only [length_append, Nat.add_assoc]
  rcases searchEntries_spec ((s.minipages col).drop i) i hle with ⟨j, k, heq, hk, hnn, hmem, hle'⟩ |
    ⟨heq, hle'⟩
  · refine .inl ⟨k, _, _, heq, _, p + (rowsOf (((s.minipages col).drop i).take j)).length, k,
      Prod.ext rfl (Prod.ext rfl (by push_cast; omega)), ⟨hseg, hcol, before, i + j, hpages, rfl,
      ?_⟩, by omega, hnn, ?_, ?_⟩
    · rw [hp, take_add, rowsOf_append, length_append, Nat.add_assoc]
    · have hrows : rowsOf pages.flatten =
          (rowsOf before.flatten ++ rowsOf ((s.minipages col).take i)) ++
            (rowsOf ((s.minipages col).drop i) ++ rowsOf rest.flatten) := by
        rw [hpages, flatten_append, flatten_cons, rowsOf_append, rowsOf_append, ← hsplit]
        simp only [append_assoc]
      rw [hrows, getElem?_append_right (by rw [length_append]; omega), length_append, ← hp,
        show (targrow - base).toNat - p = (targrow - (base + p)).toNat by omega,
        getElem?_append_left (List.getElem?_eq_some_iff.mp hk).1]
      exact hk
    · rw [drop_drop] at hmem
      rw [← rowsOf_split (s.minipages col) (i + j)]
      exact mem_append_right _ hmem
  · refine .inr ⟨heq.trans ?_, by omega⟩
    rw [hend]
    exact congrArg Sum.inr (by omega)

/-- From a new minipage on. -/
theorem searchTuples_finds (hlt : targrow < base + (rowsOf pages.flatten).length) {s : AOBlkDirScan}
    (before : List (List MinipageEntry)) (hseg : s.segno = some segno) (hcol : s.colgroupno = col)
    (hpages : pages = before ++ rest) (hle : base + (rowsOf before.flatten).length ≤ targrow) :
    Finds targrow base segno col pages
        (searchTuples targrow col s (base + (rowsOf before.flatten).length) rest) := by
  induction rest generalizing s before with
  | nil =>
    rw [hpages, append_nil] at hlt
    omega
  | cons mp rest ih =>
    rw [searchTuples]
    rcases searchEntries_finds (s := { s with minipages := update s.minipages col mp })
      (p := (rowsOf before.flatten).length) hseg hcol (update_self ..) hpages 0 rfl hle with
      ⟨k, i, start, heq, hfinds⟩ | ⟨heq, hle'⟩
    · rw [drop_zero] at heq
      rw [heq]
      exact hfinds
    · rw [drop_zero] at heq
      rw [heq]
      exact ih _ hseg hcol (hpages.trans (append_cons ..)) hle'

/-- **Stepping to the target**, from the start or from where the last call has left the scan. -/
theorem getRowNum_spec (hs : s.At segno col (c.minipages segno) p ∨ s.segno ≠ some segno ∧ p = 0)
    (hle : base + p ≤ targrow)
    (hlt : targrow < base + (rowsOf (c.minipages segno).flatten).length) :
    Finds targrow base segno col (c.minipages segno)
      (s.getRowNum c segno col targrow (base + p)) := by
  unfold AOBlkDirScan.getRowNum
  rcases hs with ⟨hseg, hcol, before, i, hpages, hi, hp⟩ | ⟨hne, rfl⟩
  · have hbegin : s.begin c segno col = s := by
      unfold AOBlkDirScan.begin
      rw [if_neg (by simp [hseg, hcol])]
    rw [hbegin]
    dsimp only
    rw [hi]
    dsimp only
    rcases searchEntries_finds hseg hcol rfl hpages i hp hle with ⟨k, i', start, heq, hfinds⟩ |
      ⟨heq, hle'⟩
    · rw [heq]
      exact hfinds
    · rw [heq]
      exact searchTuples_finds hlt _ hseg hcol (hpages.trans (append_cons ..)) hle'
  · have hbegin : s.begin c segno col =
        ⟨some segno, col, none, c.minipages segno, s.minipages⟩ := by
      unfold AOBlkDirScan.begin
      rw [if_pos (.inl hne)]
    rw [hbegin]
    exact searchTuples_finds hlt [] rfl rfl rfl hle

theorem AOBlkDirScan.At.fetch {t : SampleTable} {k : Int}
    (h : s.At segno col (c.minipages segno) p) (hc : t.columns[col]? = some c)
    (hnodup : (rowsOf (c.minipages segno).flatten).Nodup)
    (hk : k.toNat ∈ rowsOf (s.minipages col)) :
    (s.fetch t segno k).At segno col (c.minipages segno) p := by
  obtain ⟨hseg, hcol, before, i, hpages, hi, hp⟩ := h
  have hearlier : before.find? (·.any (·.covers k.toNat)) = none := by
    -- the row is not in an earlier minipage
    refine find?_eq_none.mpr fun mp hmp hin => ?_
    rw [hpages, flatten_append, rowsOf_append] at hnodup
    have hleft : k.toNat ∈ rowsOf before.flatten := by
      obtain ⟨l, l', rfl⟩ := append_of_mem hmp
      rw [flatten_append, flatten_cons, rowsOf_append, rowsOf_append]
      exact mem_append_right _ (mem_append_left _ (mem_rowsOf.mpr hin))
    have hright : k.toNat ∈ rowsOf (s.minipages col :: s.sysscan).flatten := by
      rw [flatten_cons, rowsOf_append]
      exact mem_append_left _ hk
    exact disjoint_of_nodup_append hnodup hleft hright
  have hsame : (s.fetch t segno k).minipages col = s.minipages col := by
    unfold AOBlkDirScan.fetch
    dsimp only
    rw [hc, Option.map_some, Option.getD_some, hpages, find?_append, hearlier, Option.none_or,
      find?_cons, mem_rowsOf.mp hk]
    rfl
  exact ⟨hseg, hcol, before, i, by rw [hsame]; exact hpages, hi, by rw [hsame]; exact hp⟩

/-! ## The calls -/

/-- The number of rows. -/
def rowCount (segs : List SampleSeg) : Nat := (segs.map (·.totalTupcount)).sum

theorem rowCount_cons (seg : SampleSeg) (segs : List SampleSeg) :
    rowCount (seg :: segs) = seg.totalTupcount + rowCount segs := by
  rw [rowCount, map_cons, sum_cons, rowCount]

theorem rowCount_append (segs segs' : List SampleSeg) :
    rowCount (segs ++ segs') = rowCount segs + rowCount segs' := by
  rw [rowCount, map_append, sum_append, rowCount, rowCount]

theorem locateTargetSegment_spec (segs : List SampleSeg) (i : Nat) {first processed : Int}
    (hle : first ≤ targrow) (hlt : targrow < first + rowCount segs)
    (hempty : ∀ seg, segs[0]? = some seg → seg.totalTupcount = 0 → processed = 0) :
    ∃ j seg, segs[j]? = some seg ∧ locateTargetSegment targrow i first processed segs =
        (some (i + j, seg), first + rowCount (segs.take j), if j = 0 then processed else 0) ∧
      first + rowCount (segs.take j) ≤ targrow ∧
        targrow < first + rowCount (segs.take j) + seg.totalTupcount := by
  fun_induction locateTargetSegment targrow i first processed segs with
  | case1 =>
    simp only [rowCount, map_nil, sum_nil] at hlt
    omega
  | case2 i first processed seg segs hzero ih =>
    rw [rowCount_cons] at hlt
    have hp : processed = 0 := hempty seg rfl (by omega)
    obtain ⟨j, seg', hj, hres, hle', hlt'⟩ := ih hle (by omega) fun _ _ _ => hp
    refine ⟨j + 1, seg', hj, ?_⟩
    rw [hres, take_succ_cons, rowCount_cons, show i + 1 + j = i + (j + 1) by omega, hp,
      Nat.le_zero.mp hzero]
    exact ⟨by simp, by omega, by omega⟩
  | case3 i first processed seg segs hzero hhere =>
    refine ⟨0, seg, rfl, by simp [rowCount], by simpa [rowCount] using hle, ?_⟩
    omega
  | case4 i first processed seg segs hzero hhere ih =>
    rw [rowCount_cons] at hlt
    obtain ⟨j, seg', hj, hres, hle', hlt'⟩ := ih (by omega) (by omega) fun _ _ _ => rfl
    refine ⟨j + 1, seg', hj, ?_⟩
    rw [hres, take_succ_cons, rowCount_cons, show i + 1 + j = i + (j + 1) by omega]
    exact ⟨by simp [Int.add_assoc], by omega, by omega⟩

theorem tryColumns_dropped {rowsprocessed : Int} (pre : List SampleColumn)
    (hpre : ∀ c ∈ pre, c.attisdropped = true) (cs : List SampleColumn) (col : Nat)
    (s : AOBlkDirScan) : tryColumns segno targrow rowsprocessed col (pre ++ cs) s =
      tryColumns segno targrow rowsprocessed (col + pre.length) cs s := by
  induction pre generalizing col with
  | nil => rfl
  | cons c pre ih =>
    rw [cons_append, tryColumns, if_pos (hpre c mem_cons_self),
      ih fun c hc => hpre c (mem_cons_of_mem _ hc), length_cons,
      show col + 1 + pre.length = col + (pre.length + 1) by omega]

section

variable (t : SampleTable)

structure SampleTable.Ok (rows : Nat → List Nat) : Prop where
  segnos : (t.seginfo.map (·.segno)).Nodup
  counts : ∀ seg ∈ t.seginfo, (rows seg.segno).length = seg.totalTupcount
  nodup : ∀ seg ∈ t.seginfo, (rows seg.segno).Nodup

/-- The first column that is not dropped lists all rows of the segment file. -/
def SampleTable.FirstComplete (rows : Nat → List Nat) (segno : Nat) : Prop :=
  ∃ pre c post, t.columns = pre ++ c :: post ∧ (∀ d ∈ pre, d.attisdropped = true) ∧
    c.attisdropped = false ∧ rowsOf (c.minipages segno).flatten = rows segno

/-- All rows, in the order of their logical numbers. -/
def SampleTable.allRows (rows : Nat → List Nat) : List (Nat × Nat) :=
  t.seginfo.flatMap fun seg => (rows seg.segno).map (seg.segno, ·)

theorem allRows_getElem? {rows : Nat → List Nat} {segs : List SampleSeg}
    (hcounts : ∀ seg ∈ segs, (rows seg.segno).length = seg.totalTupcount) {m k : Nat}
    {seg : SampleSeg} (hm : segs[m]? = some seg) (hk : k < seg.totalTupcount) :
    (segs.flatMap fun seg => (rows seg.segno).map (seg.segno, ·))[rowCount (segs.take m) + k]? =
      ((rows seg.segno)[k]?).map (seg.segno, ·) := by
  induction segs generalizing m with
  | nil => cases hm
  | cons x segs ih =>
    have hx := hcounts x mem_cons_self
    rw [flatMap_cons]
    cases m with
    | zero =>
      cases hm
      rw [take_zero, show rowCount [] + k = k from Nat.zero_add k,
        getElem?_append_left (by rw [length_map, hx]; exact hk), getElem?_map]
    | succ m =>
      rw [take_succ_cons, rowCount_cons, getElem?_append_right (by rw [length_map, hx]; omega),
        length_map, hx, ← ih (fun seg hseg => hcounts seg (mem_cons_of_mem _ hseg)) hm]
      congr 1
      omega

/-! A search leaves the scan in the segment file, or nowhere. -/

theorem searchTuples_segno (col : Nat) (pages : List (List MinipageEntry)) (s : AOBlkDirScan)
    (startrow : Int) : (searchTuples targrow col s startrow pages).2.1.segno = none ∨
      (searchTuples targrow col s startrow pages).2.1.segno = s.segno := by
  induction pages generalizing s startrow with
  | nil => exact .inl rfl
  | cons mp rest ih =>
    rw [searchTuples]
    split
    · exact .inr rfl
    · exact ih _ _

theorem getRowNum_segno (s : AOBlkDirScan) (c : SampleColumn) (segno col : Nat)
    (targrow startrow : Int) : (s.getRowNum c segno col targrow startrow).2.1.segno = none ∨
      (s.getRowNum c segno col targrow startrow).2.1.segno = some segno := by
  have hbegin : (s.begin c segno col).segno = some segno := by
    unfold AOBlkDirScan.begin
    split
    · rfl
    next h => exact not_not.mp fun hne => h (.inl hne)
  unfold AOBlkDirScan.getRowNum
  dsimp only
  rw [← hbegin]
  split
  · exact searchTuples_segno ..
  · split
    · exact .inr rfl
    · exact searchTuples_segno ..

theorem tryColumns_segno (segno : Nat) (targrow rowsprocessed : Int) (cs : List SampleColumn)
    (col : Nat) (s : AOBlkDirScan) :
    (tryColumns segno targrow rowsprocessed col cs s).2.segno ∈ [s.segno, none, some segno] := by
  induction cs generalizing col s with
  | nil => simp [tryColumns]
  | cons c cs ih =>
    have hget := getRowNum_segno s c segno col targrow rowsprocessed
    rw [tryColumns]
    split
    · exact ih _ _
    split
    next s' _ heq =>
      have := ih (col + 1) s'
      rw [heq] at hget
      grind
    next rownum s' startrow heq =>
      have := ih (col + 1) s'
      rw [heq] at hget
      split <;> grind

/-- Where the scan is between two calls, seen from the segment file with index `m`, if the next
target is not before `last`. -/
structure SampleScan.Between (m : Nat) (seg : SampleSeg) (c : SampleColumn)
    (col : Nat) (last : Int) (s : SampleScan) : Prop where
  first : s.segfirstrow = rowCount (t.seginfo.take s.curSeg)
  le : s.segfirstrow ≤ last
  empty : ∀ seg', t.seginfo[s.curSeg]? = some seg' → seg'.totalTupcount = 0 → s.segrowsprocessed = 0
  before : s.curSeg < m → s.blkdirscan.segno ≠ some seg.segno
  position : s.curSeg = m → ∃ p : Nat, s.segrowsprocessed = p ∧ s.segfirstrow + p ≤ last ∧
    (s.blkdirscan.At seg.segno col (c.minipages seg.segno) p ∨ s.blkdirscan.segno ≠ some seg.segno ∧
    p = 0)

end

theorem SampleTable.Ok.index_unique {t : SampleTable} {rows : Nat → List Nat}
    (hok : t.Ok rows) {k m : Nat} {seg seg' : SampleSeg} (hk : t.seginfo[k]? = some seg')
    (hm : t.seginfo[m]? = some seg) (heq : seg'.segno = seg.segno) : k = m := by
  have hget : ∀ {i : Nat} {x : SampleSeg}, t.seginfo[i]? = some x →
      (t.seginfo.map (·.segno))[i]? = some x.segno := fun hi => by
    rw [getElem?_map, hi]
    rfl
  exact (getElem?_inj (List.getElem?_eq_some_iff.mp (hget hk)).1 hok.segnos).mp
    ((hget hk).trans (heq ▸ (hget hm).symm))

section Call

variable {t : SampleTable} {rows : Nat → List Nat} (hok : t.Ok rows) {m : Nat} {seg : SampleSeg}
  (hm : t.seginfo[m]? = some seg) {c : SampleColumn} {pre post : List SampleColumn}
  (hcols : t.columns = pre ++ c :: post) (hpre : ∀ d ∈ pre, d.attisdropped = true)
  (hc : c.attisdropped = false)
  (hcomplete : rowsOf (c.minipages seg.segno).flatten = rows seg.segno)
  {last targrow : Int} {s : SampleScan}

/-- The segment file of the target, from the one the scan is in on. -/
theorem SampleScan.Between.locate {col : Nat} (h : s.Between t m seg c col last)
    (hlast : last ≤ targrow) (hlt : targrow < rowCount t.seginfo) :
      ∃ k seg', t.seginfo[k]? = some seg' ∧ s.curSeg ≤ k ∧
      locateTargetSegment targrow s.curSeg s.segfirstrow s.segrowsprocessed
        (t.seginfo.drop s.curSeg) =
        (some (k, seg'), (rowCount (t.seginfo.take k) : Int),
        if k = s.curSeg then s.segrowsprocessed else 0) ∧
      (rowCount (t.seginfo.take k) : Int) ≤ targrow ∧
      targrow < (rowCount (t.seginfo.take k) : Int) + seg'.totalTupcount := by
  have hfirst := h.first
  have hle := h.le
  have hdrop : rowCount t.seginfo = rowCount (t.seginfo.take s.curSeg) + rowCount
      (t.seginfo.drop s.curSeg) := by
    rw [← rowCount_append, take_append_drop]
  obtain ⟨j, seg', hj, hres, hle', hlt'⟩ :=
    @locateTargetSegment_spec targrow (t.seginfo.drop s.curSeg)
    s.curSeg s.segfirstrow s.segrowsprocessed (by omega) (by omega) (by simpa using h.empty)
  rw [getElem?_drop] at hj
  have hbase : s.segfirstrow + rowCount ((t.seginfo.drop s.curSeg).take j) =
      rowCount (t.seginfo.take (s.curSeg + j)) := by
    rw [hfirst, take_add, rowCount_append]
    rfl
  rw [hbase] at hres hle' hlt'
  refine ⟨s.curSeg + j, seg', hj, Nat.le_add_right _ _, ?_, hle', hlt'⟩
  rw [hres, if_congr (show j = 0 ↔ s.curSeg + j = s.curSeg by omega) rfl rfl]

include hok hm hcols hpre hc hcomplete

/-- **One call**, with what its fetch does: the row of a target in the segment file with index `m`,
and the scan is ready for the next one. -/
theorem SampleScan.Between.call (h : s.Between t m seg c pre.length last) (hlast : last ≤ targrow)
    (hlt : targrow < rowCount t.seginfo) {r : Option (Nat × Int)} {s' : SampleScan}
    (hcall : s.getTargetTuple t targrow = (r, s')) :
    s'.Between t m seg c pre.length targrow ∧
      (∀ segno rownum, r = some (segno, rownum) →
        Between t m seg c pre.length targrow
        { s' with blkdirscan := s'.blkdirscan.fetch t segno rownum }) ∧
      ∀ row : Nat, (t.allRows rows)[targrow.toNat]? = some (seg.segno, row) →
        r = some (seg.segno, (row : Int)) := by
  obtain ⟨k, seg', hk, hcur, hlocate, hle, hlt'⟩ := h.locate hlast hlt
  unfold SampleScan.getTargetTuple at hcall
  rw [hlocate] at hcall
  dsimp only at hcall
  have hrow : targrow.toNat = rowCount (t.seginfo.take k) +
      (targrow - rowCount (t.seginfo.take k)).toNat := by omega
  have hall := allRows_getElem? hok.counts hk
    (show (targrow - rowCount (t.seginfo.take k)).toNat < _ by omega)
  rw [← hrow, ← SampleTable.allRows] at hall
  have hfull : ∀ {x : SampleSeg}, t.seginfo[k]? = some x → x.totalTupcount = 0 →
      ∀ p : Int, p = 0 := by
    intro x hx hzero
    rw [hk] at hx
    cases hx
    omega
  by_cases hkm : k = m
  · subst hkm
    obtain rfl : seg' = seg := Option.some.inj (hk.symm.trans hm)
    -- the scan is in this segment file, or comes from an earlier one
    obtain ⟨p, hp, hple, hscan⟩ : ∃ p : Nat, (if k = s.curSeg then s.segrowsprocessed else 0) = p ∧
        (rowCount (t.seginfo.take k) : Int) + p ≤ targrow ∧
        (s.blkdirscan.At seg'.segno pre.length (c.minipages seg'.segno) p ∨
          s.blkdirscan.segno ≠ some seg'.segno ∧ p = 0) := by
      by_cases heq : s.curSeg = k
      · obtain ⟨p, hp, hple, hscan⟩ := h.position heq
        rw [h.first, heq] at hple
        exact ⟨p, by rw [if_pos heq.symm, hp], by omega, hscan⟩
      · exact ⟨0, if_neg (Ne.symm heq), by simpa using hle, .inr ⟨h.before (by omega), rfl⟩⟩
    obtain ⟨b, p', rownum, hget, hat, hle', hnn, hrownum, hmem⟩ := getRowNum_spec hscan hple (by
      rw [hcomplete, hok.counts _ (mem_of_getElem? hk)]
      exact hlt')
    rw [hcols, tryColumns_dropped pre hpre, Nat.zero_add, tryColumns, hc, if_neg Bool.false_ne_true,
      hp, hget] at hcall
    dsimp only at hcall
    rw [if_neg (by omega)] at hcall
    cases hcall
    have hp' : (rowCount (t.seginfo.take k) : Int) + p' - rowCount (t.seginfo.take k) = p' := by
      omega
    refine ⟨⟨rfl, hle, fun x hx hzero => hfull hx hzero _, fun hlt => absurd hlt (Nat.lt_irrefl _),
      fun _ => ⟨p', hp', hle', .inl hat⟩⟩, ?_, fun row hr => ?_⟩
    · rintro _ _ ⟨⟩
      refine ⟨rfl, hle, fun x hx hzero => hfull hx hzero _, fun hlt => absurd hlt (Nat.lt_irrefl _),
        fun _ => ⟨p', hp', hle', .inl (hat.fetch ?_ ?_ hmem)⟩⟩
      · rw [hcols, getElem?_append_right (Nat.le_refl _), Nat.sub_self]
        rfl
      · rw [hcomplete]
        exact hok.nodup _ (mem_of_getElem? hk)
    · rw [hr, ← hcomplete, hrownum] at hall
      cases hall
      rw [Int.toNat_of_nonneg hnn]
  · have hother : seg'.segno ≠ seg.segno := fun heq => hkm (hok.index_unique hk hm heq)
    have hready : ∀ (b : AOBlkDirScan) (p : Int), b.segno ∈
        [s.blkdirscan.segno, none, some seg'.segno] →
        Between t m seg c pre.length targrow ⟨k, rowCount (t.seginfo.take k), p, b⟩ := by
      intro b p hb
      refine ⟨rfl, hle, fun x hx hzero => hfull hx hzero _, fun hlt => ?_,
        fun heq => absurd heq hkm⟩
      have := h.before (Nat.lt_of_le_of_lt hcur hlt)
      simp only [mem_cons, not_mem_nil, or_false] at hb
      rcases hb with hb | hb | hb <;> rw [hb]
      · exact this
      · exact (Option.some_ne_none _).symm
      · exact fun heq => hother (Option.some.inj heq)
    have hsegno := tryColumns_segno seg'.segno targrow ((rowCount (t.seginfo.take k) : Int) +
      if k = s.curSeg then s.segrowsprocessed else 0) t.columns 0 s.blkdirscan
    have hwrong : ∀ row : Nat, (t.allRows rows)[targrow.toNat]? ≠ some (seg.segno, row) := by
      intro row hr
      obtain ⟨x, -, hx⟩ := Option.map_eq_some_iff.mp (hall.symm.trans hr)
      exact hother (Prod.mk.inj hx).1
    split at hcall <;> cases hcall
    next heq =>
      rw [heq] at hsegno
      exact ⟨hready _ _ hsegno, nofun, fun row hr => absurd hr (hwrong row)⟩
    next heq =>
      rw [heq] at hsegno
      exact ⟨hready _ _ hsegno, fun _ _ _ => hready _ _ hsegno,
        fun row hr => absurd hr (hwrong row)⟩

/-- **All calls**, from any scan between two of them, for targets that are not before the last one.
-/
theorem SampleScan.Between.sample (calls : List (Int × Bool)) : ∀ {s : SampleScan} {last : Int},
    s.Between t m seg c pre.length last → (last :: calls.map (·.1)).Pairwise (· ≤ ·) →
    (∀ call ∈ calls, call.1 < rowCount t.seginfo) → ∀ (n : Nat) (call : Int × Bool) (row : Nat),
    calls[n]? = some call → (t.allRows rows)[call.1.toNat]? = some (seg.segno, row) →
    (sample t calls s)[n]? = some (some (seg.segno, (row : Int))) := by
  induction calls with
  | nil => exact fun _ _ _ n call row hn => absurd hn (by simp)
  | cons head calls ih =>
    intro s last h horder hin n call row hn hrow
    obtain ⟨hlast, horder'⟩ := pairwise_cons.mp horder
    rcases hget : s.getTargetTuple t head.1 with ⟨r, s'⟩
    obtain ⟨hnext, hfetched, hright⟩ :=
      h.call hok hm hcols hpre hc hcomplete (hlast head.1 mem_cons_self) (hin _ mem_cons_self) hget
    have hin' : ∀ call ∈ calls, call.1 < rowCount t.seginfo := fun call hcall =>
      hin call (mem_cons_of_mem _ hcall)
    have hhead : ∀ rest, n = 0 → (r :: rest)[n]? = some (some (seg.segno, (row : Int))) := by
      rintro rest rfl
      cases hn
      rw [hright row hrow]
      rfl
    rw [SampleScan.sample, hget]
    cases r with
    | none =>
      cases n with
      | zero => exact hhead _ rfl
      | succ n => exact ih hnext horder' hin' n call row hn hrow
    | some answer =>
      cases n with
      | zero => exact hhead _ rfl
      | succ n =>
        cases hreads : head.2 with
        | false => exact ih hnext horder' hin' n call row hn hrow
        | true => exact ih (hfetched _ _ rfl) horder' hin' n call row hn hrow

end Call

/-- **Sampling.**  A call gives the segment file and the row number that stand at its target in the
list of all rows, whatever the other calls were, if the first column that is not dropped lists all
rows of that segment file. -/
theorem sample_right (t : SampleTable) (rows : Nat → List Nat) (hok : t.Ok rows)
    (calls : List (Int × Bool)) (horder : (calls.map (·.1)).Pairwise (· ≤ ·))
    (hin : ∀ call ∈ calls, 0 ≤ call.1 ∧ call.1 < (t.allRows rows).length) (n : Nat)
    (call : Int × Bool) (hcall : calls[n]? = some call) (segno row : Nat)
    (hrow : (t.allRows rows)[call.1.toNat]? = some (segno, row))
    (hfirst : t.FirstComplete rows segno) :
    (sample t calls .init)[n]? = some (some (segno, (row : Int))) := by
  obtain ⟨pre, c, post, hcols, hpre, hc, hcomplete⟩ := hfirst
  have hlen : (t.allRows rows).length = rowCount t.seginfo := by
    rw [SampleTable.allRows, length_flatMap, rowCount]
    refine congrArg sum (map_congr_left fun seg hseg => ?_)
    rw [length_map, hok.counts seg hseg]
  rw [hlen] at hin
  obtain ⟨seg, hseg, hmem⟩ := mem_flatMap.mp (mem_of_getElem? hrow)
  obtain ⟨_, -, heq⟩ := mem_map.mp hmem
  obtain rfl := (Prod.mk.inj heq).1
  obtain ⟨m, hm⟩ := mem_iff_getElem?.mp hseg
  have hinit : SampleScan.init.Between t m seg c pre.length 0 :=
    ⟨rfl, Int.le_refl _, fun _ _ _ => rfl, fun _ => (Option.some_ne_none _).symm,
      fun _ => ⟨0, rfl, Int.le_refl _, .inr ⟨(Option.some_ne_none _).symm, rfl⟩⟩⟩
  refine hinit.sample hok hm hcols hpre hc hcomplete calls
    (pairwise_cons.mpr ⟨fun targrow htarg => ?_, horder⟩) (fun call hcall => (hin call hcall).2) n
    call row hcall hrow
  obtain ⟨call, hcall, rfl⟩ := mem_map.mp htarg
  exact (hin call hcall).1

/-- A table with ten rows in segment file 1, listed by its second column in two entries. -/
def tenRows (first : List (List MinipageEntry)) : SampleTable :=
  ⟨[⟨false, fun _ => first⟩, ⟨false, fun _ => [[⟨1, 0, 5⟩, ⟨6, 40, 5⟩]]⟩], [⟨1, 10⟩]⟩

/-- Segment file 2 with five rows before that, of which the first column lists two. -/
def fifteenRows : SampleTable :=
  ⟨[⟨false, fun segno => if segno = 1 then [[⟨1, 0, 3⟩], [⟨4, 9, 7⟩]] else [[⟨4, 0, 2⟩]]⟩,
    ⟨false, fun segno => if segno = 1 then [[⟨1, 0, 5⟩, ⟨6, 40, 5⟩]] else [[⟨1, 0, 5⟩]]⟩],
    [⟨2, 5⟩, ⟨1, 10⟩]⟩

/-- The first target is in segment file 2, and wrong; the rows of segment file 1 are right. -/
theorem sample_right_fifteen :
    let calls := [(0, true), (7, true), (12, false), (14, true)]
    sample fifteenRows calls .init = [some (2, 4), some (1, 3), some (1, 8), some (1, 10)] ∧
      (sample fifteenRows calls .init)[2]? = some (some (1, 8)) := by
  refine ⟨by decide, sample_right fifteenRows
    (fun segno => if segno = 1 then range' 1 10 else range' 1 5)
    ⟨by decide, by decide, by decide⟩ _ (by decide) (by decide) 2 (12, false) rfl 1 8 (by decide)
    ⟨[], _, _, rfl, by simp, rfl, by decide⟩⟩

/-- The first column has no value for the rows before the sixth: the first row is said to be the
sixth.  If it has no entries at all, then the second of two calls is wrong. -/
theorem sample_incomplete : sample (tenRows [[⟨6, 0, 5⟩]]) [(0, true)] .init = [some (1, 6)] ∧
      sample (tenRows []) [(7, true), (8, true)] .init = [some (1, 8), some (1, 4)] := by
  decide

end PolemoDB.Aocs
