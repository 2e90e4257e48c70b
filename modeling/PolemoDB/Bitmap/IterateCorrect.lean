import PolemoDB.Bitmap.Iterate

/-!
# One round of the iteration over a batch

`pendingTids s` is the list of tids that the words from the current position on still stand for.  A
round of the main loop moves tids from there to `nextTids` and keeps the concatenation of the two
(`findnexttidsRound_advances`); `Scan.Round` also says where a round can stop.
-/

namespace PolemoDB.Bitmap

open PolemoDB.Lib List Scan Nat

/-! ## The words ahead -/

variable (s : Scan)

/-- The word at the current position. -/
def Scan.cur : HrlWord := s.words.hrl s.result.lastScanWordNo

/-- The words behind the current one. -/
def Scan.tail : List HrlWord :=
  (List.range' (s.result.lastScanWordNo + 1) (s.words.nwords - 1)).map s.words.hrl

/-- The uncompressed words from the current one on. -/
def Scan.pending : List BM_HRL_WORD :=
  expand ((List.range' s.result.lastScanWordNo s.words.nwords).map s.words.hrl)

/-- The tids they stand for. -/
def Scan.pendingTids : List Nat :=
  (onesFrom s.pending s.result.lastScanPos).map fun p => wrap (s.result.nextTid + p)

/-- Every word ahead exists and the fill words behind the current one have positive length. -/
structure Scan.ValidTail : Prop where
  inside : s.result.lastScanWordNo + s.words.nwords ≤ s.words.cwords.length
  positive : ∀ i, s.result.lastScanWordNo < i → i < s.result.lastScanWordNo + s.words.nwords →
    0 < (s.words.hrl i).len
  nextTid : s.result.nextTid < 2 ^ 64

/-- The current word has positive length too, and the scan stands inside it only if it is a literal.
-/
structure Scan.Valid : Prop extends s.ValidTail where
  curPositive : s.words.nwords > 0 → 0 < s.cur.len
  pos : s.result.lastScanPos ≤ 64
  literal : s.result.lastScanPos ≠ 0 → s.words.nwords > 0 ∧ s.cur.fill = false

variable {s s' : Scan}

theorem wrap_wrap_add (a b : Nat) : wrap (wrap a + b) = wrap (a + b) := by
  exact mod_add_mod a (2 ^ 64) b

theorem wrap_lt (n : Nat) : wrap n < 2 ^ 64 := mod_lt _ (by decide)

theorem pending_eq (h : s.words.nwords > 0) : s.pending = s.cur.expand ++ expand s.tail := by
  obtain ⟨n, hn⟩ : ∃ n, s.words.nwords = n + 1 := ⟨s.words.nwords - 1, by omega⟩
  unfold Scan.pending Scan.tail Scan.cur
  rw [hn, range'_succ, map_cons, expand_cons, Nat.add_sub_cancel]

theorem pending_zero (h : s.words.nwords = 0) : s.pending = [] := by
  unfold pending
  rw [h]
  rfl

theorem pendingTids_zero (h : s.words.nwords = 0) : s.pendingTids = [] := by
  unfold pendingTids
  rw [pending_zero h, onesFrom_of_le (by simp)]
  rfl

/-! ## Leaving a word -/

theorem nextWord_pending (bits : Nat) : (s.nextWord bits).pending = expand s.tail := rfl

theorem nextWord_valid (hv : s.ValidTail) (hn : s.words.nwords > 0) (bits : Nat) :
    (s.nextWord bits).Valid where
  inside := by
    have := hv.inside
    show s.result.lastScanWordNo + 1 + (s.words.nwords - 1) ≤ s.words.cwords.length
    omega
  positive := by
    intro i h1 h2
    have h1' : s.result.lastScanWordNo + 1 < i := h1
    have h2' : i < s.result.lastScanWordNo + 1 + (s.words.nwords - 1) := h2
    exact hv.positive i (by omega) (by omega)
  curPositive := by
    intro h
    have h' : s.words.nwords - 1 > 0 := h
    exact hv.positive (s.result.lastScanWordNo + 1) (by omega) (by omega)
  pos := by simp [nextWord]
  literal := by simp [nextWord]
  nextTid := wrap_lt _

variable {n : Nat}

theorem nextWord_pendingTids
    (h : onesFrom s.pending s.result.lastScanPos = (ones (expand s.tail)).map (64 * n + ·)) :
    (s.nextWord (n * 64)).pendingTids = s.pendingTids := by
  unfold pendingTids
  rw [nextWord_pending, h, map_map]
  apply map_congr_left
  intro p _
  show wrap (wrap (s.result.nextTid + n * 64) + p) = wrap (s.result.nextTid + (64 * n + p))
  rw [wrap_wrap_add]
  congr 1
  omega

theorem ones_zeros (n : Nat) (ws : List BM_HRL_WORD) :
    ones (List.replicate n LITERAL_ALL_ZERO ++ ws) = (ones ws).map (64 * n + ·) := by
  have hzero : ones (replicate n LITERAL_ALL_ZERO) = [] := by
    apply eq_nil_iff_forall_not_mem.mpr
    intro p hp
    rw [mem_ones (by decide)] at hp
    simp [lsbAt, LITERAL_ALL_ZERO] at hp
  rw [ones_append (by decide), hzero, length_replicate]
  rfl

theorem ones_allOne (ws : List BM_HRL_WORD) :
    ones (LITERAL_ALL_ONE :: ws) = List.range 64 ++ (ones ws).map (64 + ·) := by
  have hone : (range 64).filter (BitVec.getLsbD LITERAL_ALL_ONE) = range 64 := by decide
  rw [ones_cons (by decide), hone]

/-! ## What a step keeps -/

/-- Tids delivered and tids ahead, together. -/
def Scan.allTids (s : Scan) : List Nat := s.result.nextTids ++ s.pendingTids

/-- The first tid behind the words ahead. -/
def Scan.limit (s : Scan) : Nat := s.result.nextTid + 64 * s.pending.length

/-- A step that only moves tids from the words to the result. -/
structure Scan.Keeps (s s' : Scan) : Prop where
  tids : s'.allTids = s.allTids
  limit : s'.limit ≤ s.limit
  loc : s'.result.nextTidLoc = s.result.nextTidLoc
  startNo : s'.words.startNo = s.words.startNo
  firstTid : s'.words.firstTid = s.words.firstTid
  hwords : s'.words.hwords = s.words.hwords
  nwords : s'.words.nwords ≤ s.words.nwords

theorem Scan.Keeps.refl (s : Scan) : s.Keeps s := ⟨rfl, le_refl _, rfl, rfl, rfl, rfl, le_refl _⟩

theorem Scan.Keeps.trans {s'' : Scan} (h : s.Keeps s') (h' : s'.Keeps s'') : s.Keeps s'' :=
  ⟨h'.tids.trans h.tids, le_trans h'.limit h.limit, h'.loc.trans h.loc,
    h'.startNo.trans h.startNo, h'.firstTid.trans h.firstTid, h'.hwords.trans h.hwords,
    le_trans h'.nwords h.nwords⟩

theorem wrap_le (n : Nat) : wrap n ≤ n := mod_le _ _

theorem nextWord_keeps (hlen : s.pending.length = n + (expand s.tail).length)
    (h : onesFrom s.pending s.result.lastScanPos = (ones (expand s.tail)).map (64 * n + ·)) :
    s.Keeps (s.nextWord (n * 64)) where
  tids := by
    unfold allTids
    rw [nextWord_pendingTids h]
    rfl
  limit := by
    unfold limit
    rw [nextWord_pending, hlen]
    have : (s.nextWord (n * 64)).result.nextTid ≤ s.result.nextTid + n * 64 := wrap_le _
    omega
  loc := rfl
  startNo := rfl
  firstTid := rfl
  hwords := rfl
  nwords := sub_le _ _

theorem nextWord_keeps_zeros (hpos : s.result.lastScanPos = 0)
    (h : s.pending = List.replicate n LITERAL_ALL_ZERO ++ expand s.tail) :
    s.Keeps (s.nextWord (n * 64)) := by
  refine nextWord_keeps (by rw [h, length_append, length_replicate]) ?_
  rw [h, hpos]
  exact ones_zeros n _

/-! ## Literal words -/

theorem bitmapFindBitset_spec (w : BM_HRL_WORD) (ws : List BM_HRL_WORD) {k : Nat} (hk : k ≤ 64) :
    (bitmapFindBitset w k = 0 ∧ onesFrom (w :: ws) k = onesFrom (w :: ws) 64) ∨
    (k < bitmapFindBitset w k ∧ bitmapFindBitset w k ≤ 64 ∧
      onesFrom (w :: ws) k =
      (bitmapFindBitset w k - 1) :: onesFrom (w :: ws) (bitmapFindBitset w k)) := by
  unfold bitmapFindBitset
  generalize hn : 64 - k = n
  induction n generalizing k with
  | zero =>
    have : k = 64 := by omega
    subst this
    exact .inl ⟨rfl, rfl⟩
  | succ n ih =>
    have hbit := and_one_shiftLeft_ne_zero w (show k < 64 by omega)
    have hstep : onesFrom (w :: ws) k = _ := onesFrom_step (by simp; omega)
    rw [lsbAt_cons_lt _ _ (by omega), ← hbit] at hstep
    unfold findBitsetLoop
    rw [Nat.add_sub_cancel]
    by_cases h : w &&& 1#64 <<< k ≠ 0
    · rw [if_pos h]
      refine .inr ⟨by omega, by omega, ?_⟩
      rw [hstep, if_pos (decide_eq_true h), Nat.add_sub_cancel]
    rw [if_neg h]
    rw [if_neg (by simpa using h)] at hstep
    rw [hstep]
    rcases ih (show k + 1 ≤ 64 by omega) (by omega) with hz | ⟨h1, h2, h3⟩
    · exact .inl hz
    · exact .inr ⟨by omega, h2, h3⟩

theorem cur_expand_literal (h : s.cur.fill = false) : s.cur.expand = [s.cur.word] := by
  simp [HrlWord.expand, HrlWord.len, HrlWord.value, h]

/-- The state after `pos` has been found in a literal word. -/
def Scan.found (s : Scan) (pos : Nat) : Scan := ⟨s.words, { s.result with
    lastScanPos := pos
    nextTids := s.result.nextTids ++ [wrap (s.result.nextTid + (pos - 1))] }⟩

theorem found_keeps {pos : Nat}
    (h : onesFrom s.pending s.result.lastScanPos = (pos - 1) :: onesFrom s.pending pos) :
    s.Keeps (s.found pos) where
  tids := by
    unfold allTids pendingTids
    rw [h, map_cons]
    show (s.result.nextTids ++ [_]) ++ (onesFrom s.pending pos).map _ = _
    rw [append_assoc]
    rfl
  limit := le_refl _
  loc := rfl
  startNo := rfl
  firstTid := rfl
  hwords := rfl
  nwords := le_refl _

/-- The search of a literal word leaves the word, or stops inside it with the batch of tids full. -/
theorem searchLiteral_spec (maxTids n : Nat) (s : Scan) (hv : s.Valid) (hn : s.words.nwords > 0)
    (hlit : s.cur.fill = false) (hfuel : 64 - s.result.lastScanPos < n) :
    ∃ s', searchLiteral maxTids n s.result.lastScanPos s = s' ∧ s'.Valid ∧ s.Keeps s' ∧
      ((s'.result.lastScanWordNo = s.result.lastScanWordNo + 1 ∧ s'.words.nwords < s.words.nwords) ∨
        (s'.words = s.words ∧ s'.result.lastScanWordNo = s.result.lastScanWordNo ∧
          s'.result.nextTid = s.result.nextTid ∧ maxTids ≤ s'.result.numOfTids)) := by
  induction n generalizing s with
  | zero => omega
  | succ n ih =>
    have hpend : s.pending = s.cur.word :: expand s.tail := by
      rw [pending_eq hn, cur_expand_literal hlit]
      rfl
    unfold searchLiteral
    by_cases hfull : s.result.numOfTids < maxTids
    · rw [if_pos hfull]
      show ∃ s', (if bitmapFindBitset s.cur.word s.result.lastScanPos ≠ 0 then _ else _) = s' ∧ _
      have hfind := bitmapFindBitset_spec s.cur.word (expand s.tail) hv.pos
      rw [← hpend] at hfind
      rcases hfind with ⟨hz, hrest⟩ | ⟨hlt, hle, hrest⟩
      · -- no bit is left: the word is done
        rw [if_neg (not_not.mpr hz)]
        refine ⟨_, rfl, nextWord_valid hv.toValidTail hn _, ?_, .inl ⟨rfl, ?_⟩⟩
        · refine nextWord_keeps (n := 1) (by rw [hpend, length_cons, add_comm]) ?_
          rw [hrest, hpend, onesFrom_cons (by decide)]
        · show s.words.nwords - 1 < s.words.nwords
          omega
      · rw [if_pos (by omega)]
        obtain ⟨s', hs', hv', hk', hout⟩ :=
          ih (s.found (bitmapFindBitset s.cur.word s.result.lastScanPos))
          ⟨{ hv with }, hv.curPositive, hle, fun _ => ⟨hn, hlit⟩⟩ hn hlit
          (by show 64 - bitmapFindBitset _ _ < n; omega)
        exact ⟨s', hs', hv', (found_keeps hrest).trans hk', hout⟩
    · rw [if_neg hfull]
      exact ⟨s, rfl, hv, .refl s, .inr ⟨rfl, rfl, rfl, by omega⟩⟩

/-! ## Fill words of ones -/

theorem hrl_set_ne {b : BMBatchWords} {no i : Nat} {w : BM_HRL_WORD} (h : i ≠ no) :
    ({ b with cwords := b.cwords.set no w } : BMBatchWords).hrl i = b.hrl i := by
  unfold BMBatchWords.hrl BMBatchWords.cword
  rw [getD_eq_getElem?_getD, getD_eq_getElem?_getD, getElem?_set_ne (Ne.symm h)]

theorem hrl_set_self {b : BMBatchWords} {no : Nat} {w : BM_HRL_WORD} (h : no < b.cwords.length) :
    ({ b with cwords := b.cwords.set no w } : BMBatchWords).hrl no =
    ⟨isFillWord b.hwords no, w⟩ := by
  unfold BMBatchWords.hrl BMBatchWords.cword
  rw [getD_eq_getElem?_getD, getElem?_set_self h]
  rfl

/-- The scan stands at the start of a fill word of ones that stands for `n` words. -/
structure Scan.AtFill (s : Scan) (n : Nat) : Prop where
  nwords : s.words.nwords > 0
  pos : s.result.lastScanPos = 0
  fill : s.cur.fill = true
  one : getFillBit s.cur.word = true
  len : fillLength s.cur.word = n

theorem expandFillWord_tail : s.expandFillWord.tail = s.tail := by
  apply map_congr_left
  intro i hi
  rw [mem_range'_1] at hi
  have h : s.result.lastScanWordNo + 1 ≤ i := hi.1
  exact hrl_set_ne (by omega)

theorem expandFillWord_validTail (hv : s.ValidTail) : s.expandFillWord.ValidTail where
  inside := by
    have := hv.inside
    simpa [expandFillWord] using this
  positive := by
    intro i h1 h2
    have h1' : s.result.lastScanWordNo < i := h1
    have : s.expandFillWord.words.hrl i = s.words.hrl i := hrl_set_ne (by omega)
    rw [this]
    exact hv.positive i h1 h2
  nextTid := wrap_lt _

theorem expandFillWord_atFill (hv : s.ValidTail) (ha : s.AtFill (n + 1)) :
    s.expandFillWord.AtFill n := by
  have hcur : s.expandFillWord.cur = ⟨s.cur.fill, s.cur.word - 1⟩ :=
    hrl_set_self (by have := hv.inside; have := ha.nwords; omega)
  obtain ⟨hlen, hbit⟩ := fill_sub (show 1 ≤ fillLength s.cur.word by rw [ha.len]; omega)
  refine ⟨ha.nwords, ha.pos, ?_, ?_, ?_⟩
  · exact ha.fill
  · rw [hcur]
    exact hbit.trans ha.one
  · rw [hcur]
    exact hlen.trans (by rw [ha.len, Nat.add_sub_cancel])

theorem pending_atFill (ha : s.AtFill n) : s.pending = List.replicate n LITERAL_ALL_ONE ++
    expand s.tail := by
  rw [pending_eq ha.nwords]
  simp [HrlWord.expand, HrlWord.len, HrlWord.value, ha.fill, ha.one, ha.len]

theorem expandFillWord_pending (hv : s.ValidTail) (ha : s.AtFill (n + 1)) :
    s.pending = LITERAL_ALL_ONE :: s.expandFillWord.pending := by
  rw [pending_atFill ha, pending_atFill (expandFillWord_atFill hv ha), expandFillWord_tail]
  rfl

theorem expandFillWord_keeps (hv : s.ValidTail) (ha : s.AtFill (n + 1)) :
    s.Keeps s.expandFillWord where
  tids := by
    have ha' := expandFillWord_atFill hv ha
    have hpend := expandFillWord_pending hv ha
    unfold allTids pendingTids
    rw [ha.pos, ha'.pos, hpend]
    show _ = _ ++ (ones _).map _
    rw [ones_allOne, map_append, map_map, ← append_assoc]
    refine congrArg₂ _ rfl ?_
    apply map_congr_left
    intro p _
    show wrap (wrap (s.result.nextTid + 64) + p) = wrap (s.result.nextTid + (64 + p))
    rw [wrap_wrap_add, add_assoc]
  limit := by
    unfold limit
    rw [expandFillWord_pending hv ha, length_cons]
    have : s.expandFillWord.result.nextTid ≤ s.result.nextTid + 64 := wrap_le _
    omega
  loc := rfl
  startNo := rfl
  firstTid := rfl
  hwords := rfl
  nwords := le_refl _

/-- Expanding a fill word of ones: `m` of its `n` words are left, none of them unless the batch of
tids is full. -/
theorem expandFill_spec (maxTids n : Nat) (s : Scan) (hv : s.ValidTail) (ha : s.AtFill n) :
    ∃ s' m, expandFill maxTids n s = (s', m) ∧ s'.ValidTail ∧ s'.AtFill m ∧ s.Keeps s' ∧
      s'.result.lastScanWordNo = s.result.lastScanWordNo ∧ s'.words.nwords = s.words.nwords ∧
      ∃ k, n = k + m ∧ s'.result.nextTid = wrap (s.result.nextTid + 64 * k) ∧
        s'.result.numOfTids = s.result.numOfTids + 64 * k ∧
        (m ≠ 0 → maxTids < s'.result.numOfTids + 64) ∧
        s'.result.numOfTids ≤ max maxTids s.result.numOfTids := by
  have hsame := (mod_eq_of_lt hv.nextTid).symm
  fun_induction expandFill maxTids n s with
  | case1 s => exact ⟨s, 0, rfl, hv, ha, .refl s, rfl, rfl, 0, rfl, hsame, rfl, by simp, by omega⟩
  | case2 n s hroom ih =>
    have hv₁ := expandFillWord_validTail hv
    obtain ⟨s', m, hs', hv', ha', hk', hno, hnw, k, hkm, htid, hnum, hfull, hle⟩ :=
      ih hv₁ (expandFillWord_atFill hv ha) (mod_eq_of_lt hv₁.nextTid).symm
    have hlen : s.expandFillWord.result.numOfTids = s.result.numOfTids + 64 := by
      simp [expandFillWord, BMIterateResult.numOfTids]
    refine ⟨s', m, hs', hv', ha', (expandFillWord_keeps hv ha).trans hk', hno, hnw, k + 1,
      by omega, ?_, by omega, hfull, by omega⟩
    rw [htid]
    show wrap (wrap (s.result.nextTid + 64) + 64 * k) = _
    rw [wrap_wrap_add]
    congr 1
    omega
  | case3 n s hroom =>
    exact ⟨s, n + 1, rfl, hv, ha, .refl s, rfl, rfl, 0, by omega, hsame, rfl, fun _ => by omega,
      by omega⟩

/-! ## The main loop -/

/-- What is true of a step that does not leave the current word. -/
inductive Scan.Stays (maxTids : Nat) (s s' : Scan) : Prop
  | same (words : s'.words = s.words) (nextTid : s'.result.nextTid = s.result.nextTid)
      (full : s' = s ∨ maxTids ≤ s'.result.numOfTids)
  | fill (k n : Nat) (before : s.AtFill (k + (n + 1))) (after : s'.AtFill (n + 1))
      (nextTid : s'.result.nextTid = wrap (s.result.nextTid + 64 * k))
      (room : s.result.numOfTids < maxTids) (full : maxTids < s.result.numOfTids + 64 * k + 64)

/-- What one round of the main loop does. -/
structure Scan.Round (maxTids : Nat) (s s' : Scan) : Prop where
  valid : s'.Valid
  keeps : s.Keeps s'
  place : s.result.lastScanWordNo < s'.result.lastScanWordNo ∨
    (s'.result.lastScanWordNo = s.result.lastScanWordNo ∧ s.Stays maxTids s')

/-- Decreases with every round that is not the last one. -/
def Scan.rounds (maxTids : Nat) (s : Scan) : Nat :=
  2 * s.words.nwords + (if s.result.numOfTids < maxTids then 1 else 0)

/-- A round goes on with fewer rounds left, or it ends with a tid or without words. -/
def Scan.Advances (maxTids : Nat) (s : Scan) (r : Option (Scan ⊕ Scan)) : Prop :=
  (∃ s', r = some (.inl s') ∧ s.Round maxTids s' ∧ s'.rounds maxTids < s.rounds maxTids) ∨
  (∃ s', r = some (.inr s') ∧ s.Round maxTids s' ∧ (s'.words.nwords = 0 ∨ s'.result.nextTids ≠ []))

section Round

variable {maxTids : Nat}

theorem rounds_nextWord {bits : Nat} (hn : s.words.nwords > 0)
    (h : s.words.nwords ≤ s'.words.nwords) :
    (s.nextWord bits).rounds maxTids < s'.rounds maxTids := by
  unfold rounds
  show 2 * (s.words.nwords - 1) + _ < _
  split <;> split <;> omega

theorem zeroWord_advances (hv : s.Valid) (hn : s.words.nwords > 0) (hpos : s.result.lastScanPos = 0)
    (hz : (s.cur.fill = true ∧ getFillBit s.cur.word = false) ∨ s.cur.word = 0) :
    s.Advances maxTids
      (some (.inl (s.nextWord ((if s.cur.word = 0 then 1 else fillLength s.cur.word) * 64)))) := by
  refine .inl ⟨_, rfl, ⟨nextWord_valid hv.toValidTail hn _, nextWord_keeps_zeros hpos ?_,
    .inl (lt_succ_self _)⟩, rounds_nextWord hn (le_refl _)⟩
  have hlen := hv.curPositive hn
  rw [pending_eq hn, HrlWord.expand]
  by_cases hw : s.cur.word = 0
  · cases hf : s.cur.fill with
    | true =>
      rw [HrlWord.len, hf, hw] at hlen
      exact absurd hlen (by decide)
    | false => simp [HrlWord.len, HrlWord.value, hf, hw, LITERAL_ALL_ZERO]
  · obtain ⟨hf, hb⟩ := hz.resolve_right hw
    rw [if_neg hw]
    simp [HrlWord.len, HrlWord.value, hf, hb]

theorem Scan.Valid.pos_of_fill (hv : s.Valid) (hfill : s.cur.fill = true) :
    s.result.lastScanPos = 0 := by
  by_contra hp
  rw [(hv.literal hp).2] at hfill
  cases hfill

/-- Expanding a fill word of ones empties it, or fills the batch of tids before that. -/
theorem expandFill_outcome {n : Nat} (hv : s.ValidTail) (ha : s.AtFill n)
    (hroom : s.result.numOfTids < maxTids) :
    (∃ s', expandFill maxTids n s = (s', 0) ∧ s.Round maxTids (s'.nextWord 0) ∧
      (s'.nextWord 0).rounds maxTids < s.rounds maxTids ∧ s.result.numOfTids + 64 * n ≤ maxTids) ∨
    (∃ s' k m, n = k + (m + 1) ∧ expandFill maxTids n s = (s', m + 1) ∧ s.Round maxTids s' ∧
      s'.AtFill (m + 1) ∧ s'.result.lastScanWordNo = s.result.lastScanWordNo ∧
      s'.result.nextTid = wrap (s.result.nextTid + 64 * k) ∧
      maxTids < s.result.numOfTids + 64 * k + 64 ∧
      s'.result.numOfTids = s.result.numOfTids + 64 * k) := by
  obtain ⟨s', m, hs', hv', ha', hk', hno, hnw, k, hkm, htid, hnum, hfull, hle⟩ :=
    expandFill_spec maxTids n s hv ha
  cases m with
  | zero =>
    refine .inl ⟨s', hs', ⟨nextWord_valid hv' ha'.nwords _,
      hk'.trans (nextWord_keeps_zeros (n := 0) ha'.pos (pending_atFill ha')), .inl ?_⟩,
      rounds_nextWord ha'.nwords (le_of_eq hnw), by omega⟩
    show s.result.lastScanWordNo < s'.result.lastScanWordNo + 1
    omega
  | succ m =>
    have hv'' : s'.Valid := by
      refine ⟨hv', fun _ => ?_, by rw [ha'.pos]; omega, fun h => absurd ha'.pos h⟩
      simp [HrlWord.len, ha'.fill, ha'.len]
    refine .inr ⟨s', k, m, hkm, hs', ⟨hv'', hk', .inr ⟨hno, ?_⟩⟩, ha', hno, htid, by omega, hnum⟩
    exact .fill k m (hkm ▸ ha) ha' htid hroom (by omega)

theorem fillWord_advances (hmax : 64 ≤ maxTids) (hv : s.Valid) (hn : s.words.nwords > 0)
    (hroom : s.result.numOfTids < maxTids) (hfill : s.cur.fill = true)
    (hone : getFillBit s.cur.word = true) :
    s.Advances maxTids (match expandFill maxTids (fillLength s.cur.word) s with
      | (s, 0) => some (.inl (s.nextWord 0))
      | (s, _ + 1) => some (.inr s)) := by
  have ha : s.AtFill (fillLength s.cur.word) := ⟨hn, hv.pos_of_fill hfill, hfill, hone, rfl⟩
  rcases expandFill_outcome hv.toValidTail ha hroom with
    ⟨s', hs', hr, hrounds, -⟩ | ⟨s', k, m, -, hs', hr, -, -, -, hfull, hnum⟩
  · rw [hs']
    exact .inl ⟨_, rfl, hr, hrounds⟩
  rw [hs']
  refine .inr ⟨s', rfl, hr, .inr fun hnil => ?_⟩
  rw [BMIterateResult.numOfTids, hnil] at hnum
  simp at hnum
  omega

theorem literalWord_advances (hv : s.Valid) (hn : s.words.nwords > 0)
    (hroom : s.result.numOfTids < maxTids) (hlit : s.cur.fill = false) :
    s.Advances maxTids (some (.inl (searchLiteral maxTids 65 s.result.lastScanPos s))) := by
  obtain ⟨s', hs', hv', hk', hout⟩ := searchLiteral_spec maxTids 65 s hv hn hlit (by omega)
  rw [hs']
  refine .inl ⟨s', rfl, ⟨hv', hk', ?_⟩, ?_⟩
  · rcases hout with ⟨hno, -⟩ | ⟨hw, hno, htid, hfull⟩
    · exact .inl (by omega)
    · exact .inr ⟨hno, .same hw htid (.inr hfull)⟩
  unfold rounds
  rw [if_pos hroom]
  rcases hout with ⟨-, hlt⟩ | ⟨hw, -, -, hfull⟩
  · split <;> omega
  · rw [hw, if_neg (by omega)]
    omega

theorem findnexttidsRound_advances (hmax : 64 ≤ maxTids) (hv : s.Valid) :
    s.Advances maxTids (findnexttidsRound maxTids s) := by
  unfold findnexttidsRound
  by_cases hrun : s.words.nwords > 0 ∧ s.result.numOfTids < maxTids
  · obtain ⟨hn, hroom⟩ := hrun
    rw [if_pos ⟨hn, hroom⟩]
    show s.Advances maxTids (if s.result.lastScanPos = 0 ∧
      ((s.cur.fill = true ∧ getFillBit s.cur.word = false) ∨ s.cur.word = 0) then _ else
        if s.cur.fill = true ∧ getFillBit s.cur.word = true then _ else _)
    by_cases hzero : s.result.lastScanPos = 0 ∧
        ((s.cur.fill = true ∧ getFillBit s.cur.word = false) ∨ s.cur.word = 0)
    · rw [if_pos hzero]
      exact zeroWord_advances hv hn hzero.1 hzero.2
    rw [if_neg hzero]
    by_cases hone : s.cur.fill = true ∧ getFillBit s.cur.word = true
    · rw [if_pos hone]
      exact fillWord_advances hmax hv hn hroom hone.1 hone.2
    rw [if_neg hone]
    refine literalWord_advances hv hn hroom ?_
    by_contra hf
    have hf : s.cur.fill = true := by simpa using hf
    exact hzero ⟨hv.pos_of_fill hf, .inl ⟨hf, by simpa [hf] using hone⟩⟩
  · rw [if_neg hrun]
    refine .inr ⟨s, rfl, ⟨hv, .refl s, .inr ⟨rfl, .same rfl rfl (.inl rfl)⟩⟩, ?_⟩
    by_cases hn : s.words.nwords = 0
    · exact .inl hn
    refine .inr fun hnil => hrun ⟨by omega, ?_⟩
    rw [BMIterateResult.numOfTids, hnil]
    show 0 < maxTids
    omega

end Round

end PolemoDB.Bitmap
