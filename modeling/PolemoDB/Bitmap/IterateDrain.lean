import PolemoDB.Bitmap.Catchup

/-!
# When the iteration over a batch is complete

A batch is drained by repeated calls of `_bitmap_findnexttid`.  The catch-up at the head of
`_bitmap_findnexttids` is meant for a fresh page, and recognises one by `lastScanWordNo = startNo`.

* `drain_complete`, `drain_short` — a scan that stands inside its first word with a `nextTid` of its
  own catches up as on a fresh page and loses tids; every other one delivers all tids ahead.
-/

namespace PolemoDB.Bitmap

open PolemoDB.Lib List Scan Nat HrlWord

variable {s s' : Scan}

/-- Another list of tids; the words and the place in them stay. -/
def Scan.withTids (s : Scan) (nextTids : List Nat) (nextTidLoc : Nat) : Scan :=
  ⟨s.words, { s.result with nextTids := nextTids, nextTidLoc := nextTidLoc }⟩

theorem Scan.Valid.withTids (hv : s.Valid) (nextTids : List Nat) (nextTidLoc : Nat) :
    (s.withTids nextTids nextTidLoc).Valid :=
  ⟨{ hv with }, hv.curPositive, hv.pos, hv.literal⟩

/-! ## Without catch-up -/

/-- As long as the scan stands at the first word, `nextTid` is the tid the batch starts with, and
the word is not a fill word of ones too long for one batch of tids. -/
structure Scan.Fresh (s : Scan) : Prop where
  valid : s.Valid
  startNo : s.words.startNo = 0
  nextTid : s.result.lastScanWordNo = 0 → s.result.nextTid = s.words.firstTid
  short : s.result.lastScanWordNo = 0 → s.words.nwords > 0 → s.cur.fill = true →
    getFillBit s.cur.word = true → 64 * fillLength s.cur.word ≤ BM_BATCH_TIDS

theorem Scan.Fresh.withTids (h : s.Fresh) (nextTids : List Nat) (nextTidLoc : Nat) :
    (s.withTids nextTids nextTidLoc).Fresh :=
  { h with valid := h.valid.withTids _ _ }

/-- In the main loop, the first word is left by the first round, or the batch of tids is full. -/
def Scan.FreshRound (s : Scan) : Prop :=
  s.Fresh ∧ (s.result.lastScanWordNo = 0 → s.result.numOfTids = 0 ∨
  BM_BATCH_TIDS ≤ s.result.numOfTids)

theorem freshRound_round (h : s.FreshRound) (hr : s.Round BM_BATCH_TIDS s') : s'.FreshRound := by
  obtain ⟨hf, hnum⟩ := h
  have hstart := hr.keeps.startNo.trans hf.startNo
  rcases hr.place with hlt | ⟨hno, hstay⟩
  · have hne : s'.result.lastScanWordNo ≠ 0 := by omega
    exact ⟨⟨hr.valid, hstart, fun h => absurd h hne, fun h => absurd h hne⟩, fun h => absurd h hne⟩
  cases hstay with
  | same hw htid hfull =>
    have hcur : s'.cur = s.cur := by
      unfold cur
      rw [hw, hno]
    refine ⟨⟨hr.valid, hstart, ?_, ?_⟩, ?_⟩
    · rw [hno, htid, hw]
      exact hf.nextTid
    · rw [hno, hcur, hw]
      exact hf.short
    · rcases hfull with rfl | hfull
      · exact hnum
      · exact fun _ => .inr hfull
  | fill k n hbefore _ _ hroom hfull =>
    -- a fill word that fits is expanded as a whole
    have hne : s'.result.lastScanWordNo ≠ 0 := by
      intro h0
      rw [hno] at h0
      have hlen := hf.short h0 hbefore.nwords hbefore.fill hbefore.one
      rw [hbefore.len] at hlen
      rcases hnum h0 with hz | hfull'
      · omega
      · omega
    exact ⟨⟨hr.valid, hstart, fun h => absurd h hne, fun h => absurd h hne⟩,
      fun h => absurd h hne⟩

theorem batchTids_ge : 64 ≤ BM_BATCH_TIDS := by decide

variable {n fuel : Nat} {acc r : List Nat}

theorem findnexttidsRound_fill {maxTids m : Nat} (ha : s.AtFill n)
    (hroom : s.result.numOfTids < maxTids) (h : expandFill maxTids n s = (s', m + 1)) :
    findnexttidsRound maxTids s = some (.inr s') := by
  unfold findnexttidsRound
  rw [if_pos ⟨ha.nwords, hroom⟩]
  have hne : s.cur.word ≠ 0 := by
    intro h0
    have hone := ha.one
    rw [h0] at hone
    exact absurd hone (by decide)
  show (if s.result.lastScanPos = 0 ∧
    ((s.cur.fill = true ∧ getFillBit s.cur.word = false) ∨ s.cur.word = 0) then _ else
      if s.cur.fill = true ∧ getFillBit s.cur.word = true then _ else _) = _
  rw [if_neg (by simp [ha.one]; exact fun _ => hne), if_pos ⟨ha.fill, ha.one⟩,
    show fillLength (s.words.cword s.result.lastScanWordNo) = n from ha.len, h]

/-- A call of `_bitmap_findnexttids` moves tids from the words to the result, at least one unless
the words are used up. -/
theorem bitmapFindnexttids_fresh (hf : s.Fresh) (hfuel : 2 * s.words.nwords + 1 < fuel) :
    ∃ s', bitmapFindnexttids fuel BM_BATCH_TIDS s = some s' ∧ s'.Fresh ∧ s'.result.nextTidLoc = 0 ∧
      s'.allTids = s.pendingTids ∧ s'.words.nwords ≤ s.words.nwords ∧
      (s'.words.nwords = 0 ∨ s'.result.nextTids ≠ []) := by
  unfold bitmapFindnexttids
  generalize hs₀ : (⟨s.words, { s.result with nextTids := [], nextTidLoc := 0 }⟩ : Scan) = s₀
  have hf₀ : s₀.FreshRound := hs₀ ▸ ⟨hf.withTids _ _, fun _ => .inl rfl⟩
  have hw₀ : s₀.words = s.words := by rw [← hs₀]
  have hall : s₀.allTids = s.pendingTids := by rw [← hs₀]; rfl
  have hloc : s₀.result.nextTidLoc = 0 := by rw [← hs₀]
  have hno : ¬(s₀.result.lastScanWordNo = s₀.words.startNo ∧
      s₀.words.firstTid < s₀.result.nextTid) := by
    rintro ⟨h0, hlt⟩
    rw [hf₀.1.startNo] at h0
    have := hf₀.1.nextTid h0
    omega
  rw [if_neg hno]
  obtain ⟨s', hs', ⟨hf', hk'⟩, hend⟩ := loop_terminates (findnexttidsRound BM_BATCH_TIDS)
    (fun s => s.FreshRound ∧ s₀.Keeps s)
    (fun s => (s.FreshRound ∧ s₀.Keeps s) ∧ (s.words.nwords = 0 ∨ s.result.nextTids ≠ []))
    (rounds BM_BATCH_TIDS)
    (by
      rintro s ⟨hf, hk⟩
      rcases findnexttidsRound_advances batchTids_ge hf.1.valid with
        ⟨s', hs', hr, hlt⟩ | ⟨s', hs', hr, hend⟩
      · exact .inl ⟨s', hs', ⟨freshRound_round hf hr, hk.trans hr.keeps⟩, hlt⟩
      · exact .inr ⟨s', hs', ⟨freshRound_round hf hr, hk.trans hr.keeps⟩, hend⟩)
    fuel s₀ ⟨hf₀, .refl s₀⟩
    (by unfold rounds; rw [hw₀]; split <;> omega)
  exact ⟨s', hs', hf'.1, hk'.loc.trans hloc, hk'.tids.trans hall, hw₀ ▸ hk'.nwords, hend⟩

/-- What a caller has still to receive. -/
def Scan.undelivered (s : Scan) : List Nat := s.result.nextTids.drop s.result.nextTidLoc ++
    s.pendingTids

/-- Taking the next tid of the result. -/
def Scan.taken (s : Scan) : Scan := s.withTids s.result.nextTids (s.result.nextTidLoc + 1)

theorem undelivered_taken (h : s.result.nextTidLoc < s.result.numOfTids) :
    s.undelivered = s.result.nextTids.getD s.result.nextTidLoc 0 :: s.taken.undelivered := by
  unfold undelivered
  have hlt : s.result.nextTidLoc < s.result.nextTids.length := h
  rw [drop_eq_getElem_cons hlt, getD_eq_getElem?_getD, getElem?_eq_getElem hlt]
  rfl

theorem undelivered_empty (h : s.result.numOfTids ≤ s.result.nextTidLoc) :
    s.undelivered = s.pendingTids := by
  unfold undelivered
  rw [drop_of_length_le h]
  rfl

theorem undelivered_zero (h : s.result.nextTidLoc = 0) : s.undelivered = s.allTids := by
  unfold undelivered
  rw [h]
  rfl

theorem drainRound_take (acc : List Nat) (h : s.result.nextTidLoc < s.result.numOfTids) :
    drainRound fuel (s, acc) =
      some (.inl (s.taken, acc ++ [s.result.nextTids.getD s.result.nextTidLoc 0])) := by
  unfold drainRound bitmapFindnexttid
  have h2 : ¬ s.result.nextTidLoc ≥ s.result.numOfTids := by omega
  simp only [h2, h, and_false, if_true, if_false]
  rfl

theorem drainRound_refill (acc : List Nat) (hloc : s.result.nextTidLoc ≥ s.result.numOfTids)
    (hn : s.words.nwords ≠ 0) (h : bitmapFindnexttids fuel BM_BATCH_TIDS s = some s')
    (hloc' : s'.result.nextTidLoc = 0) :
    drainRound fuel (s, acc) = some (.inl
      (if 0 < s'.result.numOfTids then (s'.taken, acc ++ [s'.result.nextTids.getD 0 0]) else (s',
      acc))) := by
  unfold drainRound bitmapFindnexttid
  simp only [hn, hloc, h, false_and, if_true, if_false, Option.map_some, hloc']
  by_cases hpos : 0 < s'.result.numOfTids
  · simp only [hpos, if_true]
    unfold taken withTids
    rw [hloc']
    rfl
  · simp only [hpos, if_false, hloc', if_true]

/-- Decreases with every call: one call for each tid, and at most one that finds the words used up.
-/
def Scan.calls (s : Scan) : Nat := s.words.nwords + s.undelivered.length

theorem drainRound_fresh (acc : List Nat) (hf : s.Fresh) (hfuel : 2 * s.words.nwords + 1 < fuel) :
    (∃ s' acc', drainRound fuel (s, acc) = some (.inl (s', acc')) ∧ s'.Fresh ∧
      s'.words.nwords ≤ s.words.nwords ∧ acc' ++ s'.undelivered = acc ++ s.undelivered ∧
      s'.calls < s.calls) ∨
    (drainRound fuel (s, acc) = some (.inr acc) ∧ s.undelivered = []) := by
  by_cases hloc : s.result.nextTidLoc < s.result.numOfTids
  · refine .inl ⟨_, _, drainRound_take acc hloc, hf.withTids _ _, le_refl _, ?_, ?_⟩
    · rw [undelivered_taken hloc, append_assoc]
      rfl
    · show s.words.nwords + s.taken.undelivered.length < s.words.nwords + s.undelivered.length
      rw [undelivered_taken hloc, length_cons]
      omega
  have hund : s.undelivered = s.pendingTids := undelivered_empty (Nat.le_of_not_lt hloc)
  by_cases hn : s.words.nwords = 0
  · refine .inr ⟨if_pos ⟨hn, Nat.le_of_not_lt hloc⟩, ?_⟩
    rw [hund, pendingTids_zero hn]
  obtain ⟨s', hs', hf', hloc', hall, hnw, hend⟩ := bitmapFindnexttids_fresh hf hfuel
  have hund' : s'.undelivered = s.undelivered := by rw [hund, ← hall, undelivered_zero hloc']
  have hround := drainRound_refill acc (Nat.le_of_not_lt hloc) hn hs' hloc'
  unfold calls
  by_cases hpos : 0 < s'.result.numOfTids
  · have htake := undelivered_taken (show s'.result.nextTidLoc < s'.result.numOfTids by omega)
    rw [hloc', hund'] at htake
    rw [if_pos hpos] at hround
    refine .inl ⟨_, _, hround, hf'.withTids _ _, hnw, ?_, ?_⟩
    · rw [htake, append_assoc]
      rfl
    · rw [htake, length_cons]
      have : s'.taken.words.nwords = s'.words.nwords := rfl
      omega
  · have hz : s'.words.nwords = 0 := hend.resolve_right fun hne => hpos (length_pos_of_ne_nil hne)
    rw [if_neg hpos] at hround
    refine .inl ⟨_, _, hround, hf', hnw, by rw [hund'], ?_⟩
    rw [hund', hz]
    omega

/-- **Without catch-up nothing is lost.**  The caller receives what it has still to receive. -/
theorem drain_complete (hf : s.Fresh) : ∃ n, ∀ fuel ≥ n, drain fuel s = some s.undelivered := by
  refine ⟨2 * s.words.nwords + s.calls + 2, fun fuel hfuel => ?_⟩
  obtain ⟨r, hr, rfl⟩ := loop_terminates (drainRound fuel)
    (fun x => x.1.Fresh ∧ x.1.words.nwords ≤ s.words.nwords ∧ x.2 ++
    x.1.undelivered = s.undelivered) (fun r => r = s.undelivered) (fun x => x.1.calls)
    (by
      rintro ⟨x, acc⟩ ⟨hx, hnx, hacc⟩
      simp only at hx hnx hacc
      rcases drainRound_fresh acc hx (show 2 * x.words.nwords + 1 < fuel by omega) with
        ⟨x', acc', hround, hf', hnw, hacc', hlt⟩ | ⟨hround, hnil⟩
      · exact .inl ⟨(x', acc'), hround, ⟨hf', le_trans hnw hnx, hacc'.trans hacc⟩, hlt⟩
      · refine .inr ⟨acc, hround, ?_⟩
        rw [← hacc, hnil, append_nil])
    fuel (s, []) ⟨hf, le_refl _, rfl⟩ (by show s.calls < fuel; omega)
  exact hr

/-! ## With catch-up -/

/-- A scan of words whose tids are 64-bit numbers; the first word is a fill word of ones. -/
structure Scan.Begun (s : Scan) : Prop where
  valid : s.Valid
  startNo : s.words.startNo = 0
  limit : s.limit ≤ 2 ^ 64
  first : s.result.lastScanWordNo = 0 → s.cur.fill = true ∧ getFillBit s.cur.word = true

theorem Scan.Begun.withTids (h : s.Begun) (nextTids : List Nat) (nextTidLoc : Nat) :
    (s.withTids nextTids nextTidLoc).Begun :=
  { h with valid := h.valid.withTids _ _ }

/-- The scan stands inside the first word, at a tid of its own. -/
structure Scan.Stuck (s : Scan) : Prop where
  nwords : s.words.nwords > 0
  first : s.result.lastScanWordNo = 0
  behind : s.words.firstTid < s.result.nextTid

theorem Scan.Stuck.withTids (h : s.Stuck) (nextTids : List Nat) (nextTidLoc : Nat) :
    (s.withTids nextTids nextTidLoc).Stuck := { h with }

theorem begun_round (h : s.Begun) (hr : s.Round BM_BATCH_TIDS s') : s'.Begun := by
  refine ⟨hr.valid, hr.keeps.startNo.trans h.startNo, le_trans hr.keeps.limit h.limit, fun h0 => ?_⟩
  rcases hr.place with hlt | ⟨hno, hstay⟩
  · omega
  cases hstay with
  | same hw _ _ =>
    have hcur : s'.cur = s.cur := by
      unfold cur
      rw [hw, hno]
    rw [hcur]
    exact h.first (hno ▸ h0)
  | fill _ _ _ hafter _ _ _ => exact ⟨hafter.fill, hafter.one⟩

theorem findnexttids_loop_begun (h : s.Begun)
    (hrun : loop (findnexttidsRound BM_BATCH_TIDS) fuel s = some s') : s'.Begun ∧ s.Keeps s' := by
  refine loop_relates (R := Keeps) Keeps.trans (fun s hs => ?_) h hrun
  rcases findnexttidsRound_advances batchTids_ge hs.valid with ⟨x, hx, hr, -⟩ | ⟨x, hx, hr, -⟩
  · exact ⟨x, .inl hx, begun_round hs hr, hr.keeps⟩
  · exact ⟨x, .inr hx, begun_round hs hr, hr.keeps⟩

/-- What a catch-up does to the tids ahead: it can only drop some, and does so if the scan stands at
a fill word of ones behind the tid it looks for. -/
structure Scan.Drops (s s' : Scan) : Prop where
  begun : s'.Begun
  pos : s'.result.lastScanPos = 0
  nextTids : s'.result.nextTids = s.result.nextTids
  loc : s'.result.nextTidLoc = s.result.nextTidLoc
  le : s'.pendingTids.length ≤ s.pendingTids.length
  lt : s.Stuck → s'.pendingTids.length < s.pendingTids.length

theorem pendingTids_length (h : s.result.lastScanPos = 0) :
    s.pendingTids.length = (ones s.pending).length := by
  unfold pendingTids ones
  rw [h, length_map]

theorem drops_of_append (xs : List BM_HRL_WORD) (h : s.Begun) (hpos : s.result.lastScanPos = 0)
    (hpos' : s'.result.lastScanPos = 0) (hv : s'.Valid)
    (hstart : s'.words.startNo = s.words.startNo) (htid : s'.result.nextTid = s.result.nextTid)
    (hfirst : s'.result.lastScanWordNo = 0 → s'.cur.fill = true ∧ getFillBit s'.cur.word = true)
    (htids : s'.result.nextTids = s.result.nextTids)
    (hloc : s'.result.nextTidLoc = s.result.nextTidLoc)
    (happ : s.pending = xs ++ s'.pending) (hone : s.Stuck → ones xs ≠ []) : s.Drops s' := by
  have hlen : (ones s.pending).length = (ones xs).length + (ones s'.pending).length := by
    rw [happ, ones_append (by decide), length_append, length_map]
  refine ⟨⟨hv, hstart.trans h.startNo, ?_, hfirst⟩, hpos', htids, hloc, ?_, fun hs => ?_⟩
  · have := h.limit
    unfold limit at this ⊢
    rw [happ, length_append] at this
    omega
  · rw [pendingTids_length hpos, pendingTids_length hpos', hlen]
    omega
  · rw [pendingTids_length hpos, pendingTids_length hpos', hlen]
    have := length_pos_of_ne_nil (hone hs)
    omega

variable {firstTid k tid : Nat} (b : SingleVectorBatch)

theorem skipWord_drops {cwords : List BM_HRL_WORD} (h : s.Begun)
    (hpos : s.result.lastScanPos = 0) (hn : s.words.nwords > 0) (hsame : s.SameBehind cwords) :
    s.Drops (s.skipWord firstTid cwords) := by
  have hv := nextWord_valid h.valid.toValidTail hn 0
  have hpend : (s.skipWord firstTid cwords).pending = expand s.tail :=
    congrArg expand (map_congr_left fun _ hi => skipWord_hrl hsame (mem_range'_1.1 hi).1)
  refine drops_of_append _ h hpos hpos ?_ rfl rfl (fun h0 => absurd h0 (by simp [skipWord])) rfl
    rfl (by rw [hpend, pending_eq hn]) fun hs => ?_
  · refine ⟨⟨?_, ?_, h.valid.nextTid⟩, ?_, h.valid.pos, fun hp => absurd hpos hp⟩
    · show s.result.lastScanWordNo + 1 + (s.words.nwords - 1) ≤ cwords.length
      rw [hsame.1]
      exact hv.inside
    · intro i h1 h2
      have h1' : s.result.lastScanWordNo + 1 < i := h1
      rw [skipWord_hrl hsame (by omega)]
      exact hv.positive i h1 h2
    · intro hn'
      show 0 < ((s.skipWord firstTid cwords).words.hrl (s.result.lastScanWordNo + 1)).len
      rw [skipWord_hrl hsame (lt_succ_self _)]
      exact hv.curPositive hn'
  · have hfill := h.first hs.first
    have hlen := h.valid.curPositive hn
    obtain ⟨n, hn'⟩ : ∃ n, s.cur.len = n + 1 := ⟨s.cur.len - 1, by omega⟩
    rw [HrlWord.expand, hn', HrlWord.value, if_pos hfill.1, if_pos hfill.2, replicate_succ,
      ones_allOne]
    simp

theorem cutFill_drops (h : s.Begun) (hpos : s.result.lastScanPos = 0)
    (hn : s.words.nwords > 0) (hfill : s.cur.fill = true) (hlt : n < fillLength s.cur.word)
    (hn0 : 0 < n) : s.Drops (s.cutFill firstTid n) := by
  have hin := h.valid.inside
  have hcur : (s.cutFill firstTid n).cur = ⟨s.cur.fill, s.cur.word - BitVec.ofNat 64 n⟩ :=
    cutFill_cur (by omega)
  obtain ⟨hlen, hbit⟩ := fill_sub (le_of_lt hlt)
  have hexp : s.cur.expand = replicate n s.cur.value ++ (s.cutFill firstTid n).cur.expand := by
    rw [hcur]
    unfold HrlWord.expand HrlWord.len HrlWord.value
    rw [if_pos hfill, if_pos hfill, if_pos hfill, if_pos hfill, hlen, hbit,
      replicate_append_replicate]
    congr 1
    omega
  refine drops_of_append (replicate n s.cur.value) h hpos hpos ?_ rfl rfl (fun h0 => ?_) rfl rfl
    ?_ fun hs => ?_
  · refine ⟨⟨?_, ?_, h.valid.nextTid⟩, fun _ => ?_, h.valid.pos, fun hp => absurd hpos hp⟩
    · show s.result.lastScanWordNo + s.words.nwords ≤ (s.words.cwords.set _ _).length
      rw [length_set]
      exact hin
    · intro i h1 h2
      rw [cutFill_hrl (s := s) h1]
      exact h.valid.positive i h1 h2
    · rw [hcur]
      unfold len
      rw [if_pos hfill, hlen]
      omega
  · rw [hcur]
    have hone := h.first h0
    exact ⟨hone.1, hbit.trans hone.2⟩
  · rw [pending_eq hn, pending_eq (s := s.cutFill firstTid n) hn, cutFill_tail, hexp,
      append_assoc]
  · have hone := h.first hs.first
    obtain ⟨m, rfl⟩ : ∃ m, n = m + 1 := ⟨n - 1, by omega⟩
    rw [value, if_pos hone.1, if_pos hone.2, replicate_succ, ones_allOne]
    simp

theorem catchupRound_drops (h : s.Begun) (hpos : s.result.lastScanPos = 0) :
    ∃ s', (catchupRound s = some (.inl s') ∨ catchupRound s = some (.inr s')) ∧ s.Drops s' := by
  by_cases hrun : s.words.nwords > 0 ∧ s.words.firstTid < s.result.nextTid
  · obtain ⟨hn, hbehind⟩ := hrun
    by_cases hfill : s.cur.fill = true
    · have hlen : 0 < fillLength s.cur.word := by
        have := h.valid.curPositive hn
        rwa [len, if_pos hfill] at this
      have hword : s.cur.word ≠ 0 := by
        intro h0
        rw [h0] at hlen
        exact absurd hlen (by decide)
      generalize huse : min ((s.result.nextTid - s.words.firstTid) / 64 + 1)
        (fillLength s.cur.word) = use
      rw [catchupRound_fill hn hbehind hfill hword use huse.symm]
      by_cases hdone : fillLength s.cur.word - use = 0
      · rw [if_pos hdone]
        exact ⟨_, .inl rfl, skipWord_drops h hpos hn (sameBehind_set _)⟩
      rw [if_neg hdone]
      -- the word is longer than what is skipped, so the sum does not wrap and passes `nextTid`
      have hlimit := h.limit
      unfold limit at hlimit
      rw [pending_eq hn, length_append, hrlWord_expand_length, len, if_pos hfill] at hlimit
      have hwrap : wrap (s.words.firstTid + use * 64) = s.words.firstTid + use * 64 :=
        mod_eq_of_lt (by omega)
      rw [if_pos (by omega)]
      exact ⟨_, .inr rfl, cutFill_drops h hpos hn hfill (by omega) (by omega)⟩
    · exact ⟨_, .inl (catchupRound_one hn hbehind fun h => absurd h hfill),
        skipWord_drops h hpos hn ⟨rfl, fun _ _ => rfl⟩⟩
  · refine ⟨s, .inr ?_, ⟨h, hpos, rfl, rfl, le_refl _,
      fun hs => absurd ⟨hs.nwords, hs.behind⟩ hrun⟩⟩
    exact if_neg hrun

theorem Scan.Drops.trans {s₁ : Scan} (h : s.Drops s₁) (h₁ : s₁.Drops s') : s.Drops s' :=
  ⟨h₁.begun, h₁.pos, h₁.nextTids.trans h.nextTids, h₁.loc.trans h.loc, le_trans h₁.le h.le,
    fun hst => lt_of_le_of_lt h₁.le (h.lt hst)⟩

theorem bitmapCatchupToNextTid_drops (h : s.Begun) (hpos : s.result.lastScanPos = 0)
    (hrun : bitmapCatchupToNextTid fuel s = some s') : s.Drops s' := by
  refine (loop_relates (I := fun s => s.Begun ∧ s.result.lastScanPos = 0) (R := Drops) Drops.trans
    (fun s hs => ?_) ⟨h, hpos⟩ hrun).2
  obtain ⟨x, hx, hd⟩ := catchupRound_drops hs.1 hs.2
  exact ⟨x, hx, ⟨hd.begun, hd.pos⟩, hd⟩

/-- A call of `_bitmap_findnexttids` never gives more tids than were ahead, and fewer if the scan
was stuck in its first word. -/
theorem bitmapFindnexttids_begun (h : s.Begun)
    (hrun : bitmapFindnexttids fuel BM_BATCH_TIDS s = some s') :
    s'.Begun ∧ s'.result.nextTidLoc = 0 ∧ s'.allTids.length ≤ s.pendingTids.length ∧
      (s.Stuck → s'.allTids.length < s.pendingTids.length) := by
  unfold bitmapFindnexttids at hrun
  generalize hs₀ : (⟨s.words, { s.result with nextTids := [], nextTidLoc := 0 }⟩ : Scan) =
    s₀ at hrun
  have h₀ : s₀.Begun := hs₀ ▸ h.withTids [] 0
  have hstuck : s.Stuck → s₀.Stuck := fun h => hs₀ ▸ h.withTids [] 0
  have hpend : s₀.pendingTids = s.pendingTids := by rw [← hs₀]; rfl
  have hnil : s₀.result.nextTids = [] := by rw [← hs₀]
  have hloc : s₀.result.nextTidLoc = 0 := by rw [← hs₀]
  by_cases hcatch : s₀.result.lastScanWordNo = s₀.words.startNo ∧
    s₀.words.firstTid < s₀.result.nextTid
  · rw [if_pos hcatch] at hrun
    have hpos : s₀.result.lastScanPos = 0 :=
      h₀.valid.pos_of_fill (h₀.first (hcatch.1.trans h₀.startNo)).1
    cases hc : bitmapCatchupToNextTid fuel s₀ with
    | none =>
      rw [hc] at hrun
      cases hrun
    | some s₁ =>
      rw [hc] at hrun
      have hd := bitmapCatchupToNextTid_drops h₀ hpos hc
      obtain ⟨hb, hk⟩ := findnexttids_loop_begun hd.begun hrun
      have hall : s'.allTids.length = s₁.pendingTids.length := by
        rw [hk.tids, allTids, hd.nextTids, hnil]
        rfl
      rw [hall, ← hpend]
      exact ⟨hb, hk.loc.trans (hd.loc.trans hloc), hd.le, fun hs => hd.lt (hstuck hs)⟩
  · rw [if_neg hcatch] at hrun
    obtain ⟨hb, hk⟩ := findnexttids_loop_begun h₀ hrun
    have hall : s'.allTids.length = s.pendingTids.length := by
      rw [hk.tids, allTids, hnil, hpend]
      rfl
    refine ⟨hb, hk.loc.trans hloc, le_of_eq hall, fun hs => absurd ?_ hcatch⟩
    exact ⟨(hstuck hs).first.trans h₀.startNo.symm, (hstuck hs).behind⟩

/-- At least as many tids are still to be delivered as `k`, and more if the scan is stuck. -/
def Scan.Owes (s : Scan) (k : Nat) : Prop := k ≤ s.undelivered.length ∧
    (s.Stuck → k < s.undelivered.length)

theorem owes_taken (hloc : s.result.nextTidLoc < s.result.numOfTids) (h : s.taken.Owes k) :
    s.Owes (k + 1) := by
  unfold Owes at h ⊢
  rw [undelivered_taken hloc, length_cons]
  exact ⟨by omega, fun hs => by have := h.2 (hs.withTids _ _); omega⟩

/-- The caller ends with `k` more tids than `acc`, and these were owed by the scan. -/
def Scan.Yields (s : Scan) (acc r : List Nat) : Prop := ∃ k, r.length = acc.length + k ∧ s.Owes k

theorem yields_taken (hloc : s.result.nextTidLoc < s.result.numOfTids)
    (h : s.taken.Yields (acc ++ [tid]) r) : s.Yields acc r := by
  obtain ⟨k, hk, ho⟩ := h
  refine ⟨k + 1, ?_, owes_taken hloc ho⟩
  rw [hk, length_append, length_singleton]
  omega

theorem drainRound_begun {y : (Scan × List Nat) ⊕ List Nat} (h : s.Begun)
    (hloc : s.result.numOfTids ≤ s.result.nextTidLoc) (hbody : drainRound fuel (s, acc) = some y) :
    (s.words.nwords = 0 ∧ y = .inr acc) ∨
    ∃ s₁ x acc', bitmapFindnexttids fuel BM_BATCH_TIDS s = some s₁ ∧ y = .inl (x, acc') ∧ x.Begun ∧
      ∀ r, x.Yields acc' r → s₁.Yields acc r := by
  by_cases hn : s.words.nwords = 0
  · refine .inl ⟨hn, ?_⟩
    unfold drainRound at hbody
    rw [if_pos ⟨hn, hloc⟩] at hbody
    exact (Option.some.inj hbody).symm
  cases hc : bitmapFindnexttids fuel BM_BATCH_TIDS s with
  | none =>
    unfold drainRound bitmapFindnexttid at hbody
    simp [hn, hloc, hc] at hbody
  | some s₁ =>
    obtain ⟨hb, hloc₁, -⟩ := bitmapFindnexttids_begun h hc
    rw [drainRound_refill acc hloc hn hc hloc₁] at hbody
    have hy := (Option.some.inj hbody).symm
    split at hy
    · exact .inr ⟨s₁, _, _, rfl, hy, hb.withTids _ _, fun r => yields_taken (by omega)⟩
    · exact .inr ⟨s₁, _, _, rfl, hy, hb, fun r => id⟩

/-- What the caller owes after a call of `_bitmap_findnexttids` was owed before it. -/
theorem owes_findnexttids (h : s.Begun) (hloc : s.result.numOfTids ≤ s.result.nextTidLoc)
    (hrun : bitmapFindnexttids fuel BM_BATCH_TIDS s = some s') (ho : s'.Owes k) : s.Owes k := by
  obtain ⟨-, hloc', hle, hlt⟩ := bitmapFindnexttids_begun h hrun
  have hall := undelivered_zero hloc'
  unfold Owes at ho ⊢
  rw [undelivered_empty hloc]
  rw [hall] at ho
  exact ⟨by omega, fun hs => by have := hlt hs; omega⟩

/-- **With catch-up tids are lost.**  A caller receives at most what is still to be delivered, and
less if the scan is stuck in its first word. -/
theorem drain_short (h : s.Begun) (hrun : loop (drainRound fuel) n (s, acc) = some r) :
    s.Yields acc r := by
  refine loop_sound (drainRound fuel) (fun x r => x.1.Begun → x.1.Yields x.2 r) ?_ ?_ n
    (s, acc) r hrun h
  · rintro ⟨x, acc⟩ ⟨x', acc'⟩ r hbody ih hx
    by_cases hloc : x.result.nextTidLoc < x.result.numOfTids
    · rw [drainRound_take acc hloc] at hbody
      cases hbody
      exact yields_taken hloc (ih (hx.withTids _ _))
    have hloc := Nat.le_of_not_lt hloc
    rcases drainRound_begun hx hloc hbody with ⟨-, hy⟩ | ⟨x₁, _, _, hx₁, hy, hb, hyields⟩ <;>
      cases hy
    obtain ⟨k, hk, ho⟩ := hyields r (ih hb)
    exact ⟨k, hk, owes_findnexttids hx hloc hx₁ ho⟩
  · rintro ⟨x, acc⟩ r hbody hx
    by_cases hloc : x.result.nextTidLoc < x.result.numOfTids
    · rw [drainRound_take acc hloc] at hbody
      cases hbody
    rcases drainRound_begun hx (Nat.le_of_not_lt hloc) hbody with ⟨hn, hy⟩ | ⟨_, _, _, _, hy, -⟩ <;>
      cases hy
    exact ⟨0, rfl, zero_le _, fun hs => absurd hn (ne_of_gt hs.nwords)⟩

/-! ## A batch of one vector -/

/-- A batch as an iteration starts with it: the words are there, fill words have positive length,
and the tids of all positions are 64-bit numbers. -/
structure SingleVectorBatch where
  words : BMBatchWords
  startNo : words.startNo = 0
  inside : words.nwords ≤ words.cwords.length
  positive : ∀ i < words.nwords, 0 < (words.hrl i).len
  firstTid : words.firstTid < 2 ^ 64
  fits : words.firstTid + 64 * (expand (hrlWords words.hwords words.cwords words.nwords)).length ≤
    2 ^ 64

/-- The tids of the set positions of the decompressed vector, in increasing order. -/
def SingleVectorBatch.tids : List Nat :=
  (ones (expand (hrlWords b.words.hwords b.words.cwords b.words.nwords))).map (b.words.firstTid + ·)

/-- The batch starts with a fill word of ones that stands for more tids than one call finds. -/
def SingleVectorBatch.startsWithLongFill : Prop :=
  b.words.nwords > 0 ∧ isFillWord b.words.hwords 0 = true ∧ getFillBit (b.words.cword 0) = true ∧
    BM_BATCH_TIDS < 64 * fillLength (b.words.cword 0)

/-- The scan right after `_bitmap_begin_iterate`. -/
def SingleVectorBatch.scan (result : BMIterateResult) : Scan :=
  ⟨b.words, bitmapBeginIterate b.words result⟩

variable {b : SingleVectorBatch} {result : BMIterateResult}

theorem scan_no : (b.scan result).result.lastScanWordNo = 0 := b.startNo

theorem scan_pending : (b.scan result).pending =
    expand (hrlWords b.words.hwords b.words.cwords b.words.nwords) := by
  unfold pending hrlWords
  rw [scan_no, range_eq_range']
  rfl

section

variable (h : result.nextTid = b.words.firstTid)
include h

theorem scan_valid : (b.scan result).Valid := by
  have hno : (b.scan result).result.lastScanWordNo = 0 := scan_no
  refine ⟨⟨?_, ?_, ?_⟩, fun hn => ?_, zero_le _, fun hp => absurd rfl hp⟩
  · rw [hno, zero_add]
    exact b.inside
  · intro i _ hi
    rw [hno, zero_add] at hi
    exact b.positive i hi
  · show result.nextTid < 2 ^ 64
    rw [h]
    exact b.firstTid
  · unfold cur
    rw [hno]
    exact b.positive 0 hn

theorem scan_undelivered : (b.scan result).undelivered = b.tids := by
  show (onesFrom (b.scan result).pending 0).map (fun p => wrap (result.nextTid + p)) = b.tids
  rw [scan_pending, h]
  apply map_congr_left
  intro p hp
  have hlt : p < 64 * (expand (hrlWords b.words.hwords b.words.cwords b.words.nwords)).length := by
    by_contra hge
    rw [show onesFrom _ 0 = ones _ from rfl, mem_ones (by decide),
      lsbAt_of_length_le (by decide) (Nat.le_of_not_lt hge)] at hp
    cases hp
  have := b.fits
  exact mod_eq_of_lt (by omega)

theorem drain_scan_complete (hshort : ¬ b.startsWithLongFill) :
    ∃ n, ∀ fuel ≥ n, drain fuel (b.scan result) = some b.tids := by
  rw [← scan_undelivered h]
  refine drain_complete ⟨scan_valid h, b.startNo, fun _ => h, fun h0 hn hfill hone => ?_⟩
  unfold cur at hfill hone ⊢
  rw [h0] at hfill hone ⊢
  exact Nat.le_of_not_lt fun hlong => hshort ⟨hn, hfill, hone, hlong⟩

end

theorem bitmapFindnexttids_longFill (hb : s.Begun) (hfirst : s.result.lastScanWordNo = 0)
    (htid : s.result.nextTid = s.words.firstTid) (ha : s.AtFill n) (hlong : BM_BATCH_TIDS < 64 * n)
    (hrun : bitmapFindnexttids fuel BM_BATCH_TIDS s = some s') : s'.Stuck := by
  unfold bitmapFindnexttids at hrun
  generalize hs₀ : (⟨s.words, { s.result with nextTids := [], nextTidLoc := 0 }⟩ : Scan) =
    s₀ at hrun
  have hb₀ : s₀.Begun := hs₀ ▸ hb.withTids [] 0
  have ha₀ : s₀.AtFill n := hs₀ ▸ { ha with }
  have htid₀ : s₀.result.nextTid = s₀.words.firstTid := by rw [← hs₀]; exact htid
  have hfirst₀ : s₀.result.lastScanWordNo = 0 := by rw [← hs₀]; exact hfirst
  have hnum₀ : s₀.result.numOfTids = 0 := by rw [← hs₀]; rfl
  rw [if_neg (by omega)] at hrun
  obtain ⟨f, rfl, -⟩ := loop_some hrun
  have hroom : s₀.result.numOfTids < BM_BATCH_TIDS := by rw [hnum₀]; decide
  rcases expandFill_outcome hb₀.valid.toValidTail ha₀ hroom with
    ⟨_, _, _, _, hle⟩ | ⟨x, k, m, hkm, hx, hr, hax, hnox, htidx, hfull, -⟩
  · omega
  rw [loop_inr (findnexttidsRound_fill ha₀ hroom hx)] at hrun
  cases hrun
  refine ⟨hax.nwords, hnox.trans hfirst₀, ?_⟩
  have hlimit := hb₀.limit
  unfold limit at hlimit
  rw [pending_atFill ha₀, length_append, length_replicate] at hlimit
  have hwrap : wrap (s₀.result.nextTid + 64 * k) = s₀.result.nextTid + 64 * k :=
    mod_eq_of_lt (by omega)
  have hbatch : BM_BATCH_TIDS = 16384 := rfl
  rw [hr.keeps.firstTid, htidx, hwrap, ← htid₀]
  omega

theorem drain_scan_short (h : result.nextTid = b.words.firstTid) (hlong : b.startsWithLongFill)
    (fuel : Nat) : drain fuel (b.scan result) ≠ some b.tids := by
  intro hrun
  obtain ⟨hn, hfill, hone, hlen⟩ := hlong
  have hcur : (b.scan result).cur = b.words.hrl 0 := by
    unfold cur
    rw [scan_no]
    rfl
  have hbegun : (b.scan result).Begun := by
    refine ⟨scan_valid h, b.startNo, ?_, fun _ => ?_⟩
    · unfold limit
      rw [scan_pending]
      show result.nextTid + _ ≤ _
      rw [h]
      exact b.fits
    · rw [hcur]
      exact ⟨hfill, hone⟩
  have hat : (b.scan result).AtFill (fillLength (b.words.cword 0)) :=
    ⟨hn, rfl, by rw [hcur]; exact hfill, by rw [hcur]; exact hone, by rw [hcur]; rfl⟩
  obtain ⟨f, -, ⟨⟨x, acc⟩, hbody, hrest⟩ | hbody⟩ := loop_some hrun
  · rcases drainRound_begun hbegun (zero_le _) hbody with ⟨-, hy⟩ | ⟨s', _, _, hs', hy, hb,
      hyields⟩ <;> cases hy
    have hstuck := bitmapFindnexttids_longFill hbegun scan_no h hat hlen hs'
    obtain ⟨-, hloc', hle, -⟩ := bitmapFindnexttids_begun hbegun hs'
    obtain ⟨k, hk, ho⟩ := hyields _ (drain_short hb hrest)
    have hlt := ho.2 hstuck
    have hund := scan_undelivered h
    rw [undelivered_empty (zero_le _)] at hund
    rw [undelivered_zero hloc'] at hlt
    rw [hund, hk] at hle
    simp at hle
    omega
  · rcases drainRound_begun hbegun (zero_le _) hbody with ⟨h0, -⟩ | ⟨_, _, _, _, hy, -⟩
    · exact absurd h0 (ne_of_gt hn)
    · cases hy

/-- **What the iteration delivers.**  From `_bitmap_begin_iterate` on, repeated calls of
`_bitmap_findnexttid` deliver the tids of the set positions, in increasing order and each once,
exactly if the batch does not start with a fill word of ones that is longer than `BM_BATCH_TIDS`
tids. -/
theorem bitmapFindnexttid_drains_iff (b : SingleVectorBatch) (result : BMIterateResult)
    (h : result.nextTid = b.words.firstTid) :
    (∃ n, ∀ fuel ≥ n, drain fuel ⟨b.words, bitmapBeginIterate b.words result⟩ = some b.tids) ↔
      ¬ b.startsWithLongFill := by
  constructor
  · rintro ⟨n, hdrain⟩ hlong
    exact drain_scan_short h hlong n (hdrain n (le_refl _))
  · intro hshort
    exact drain_scan_complete h hshort

/-- A fill word of ones, a literal word and a fill word of zeros. -/
def mixedBatch : SingleVectorBatch where
  words := ⟨1, 0, 3, [0xA000000000000000], [makeFillWord true 2, 5, makeFillWord false 7]⟩
  startNo := rfl
  inside := by decide
  positive := by decide
  firstTid := by decide
  fits := by decide

/-- The three kinds of words, from tid 1 on. -/
theorem bitmapFindnexttid_drains_mixed : (∃ n, ∀ fuel ≥ n, drain fuel ⟨mixedBatch.words,
      bitmapBeginIterate mixedBatch.words ⟨1, 0, 0, [], 0⟩⟩ = some mixedBatch.tids) ↔
      ¬ mixedBatch.startsWithLongFill :=
  bitmapFindnexttid_drains_iff mixedBatch ⟨1, 0, 0, [], 0⟩ rfl

/-- A single fill word of 257 words of ones. -/
def longFillBatch : SingleVectorBatch where
  words := ⟨1, 0, 1, [0x8000000000000000], [makeFillWord true 257]⟩
  startNo := rfl
  inside := by decide
  positive := by decide
  firstTid := by decide
  fits := by
    rw [show expand (hrlWords [0x8000000000000000] [makeFillWord true 257] 1) =
      HrlWord.expand ⟨true, makeFillWord true 257⟩ ++ [] from rfl]
    rw [List.append_nil, hrlWord_expand_length]
    decide

/-- The second call of `_bitmap_findnexttids` on it starts with a catch-up that swallows the word
left. -/
theorem bitmapFindnexttid_longFill : ¬ ∃ fuel, drain fuel ⟨longFillBatch.words,
      bitmapBeginIterate longFillBatch.words ⟨1, 0, 0, [], 0⟩⟩ = some longFillBatch.tids := by
  rintro ⟨fuel, hdrain⟩
  exact drain_scan_short rfl (by unfold SingleVectorBatch.startsWithLongFill; decide) fuel hdrain

end PolemoDB.Bitmap
