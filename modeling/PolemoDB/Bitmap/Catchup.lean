import PolemoDB.Bitmap.IterateCorrect

/-!
# Catching up with the next tid (`_bitmap_catchup_to_next_tid`)

A batch whose first tid lies before the next tid to search is consumed word by word until the two
meet. Here both tids are at word boundaries.
-/

namespace PolemoDB.Bitmap

open PolemoDB.Lib List Option Scan HrlWord

/-! ## The words ahead, as the scan reads them -/

/-- The number of words a scan takes a word for: a fill word that is zero counts as one. -/
def HrlWord.readLen (x : HrlWord) : Nat := if x.fill = true ∧ x.word = 0 then 1 else x.len

def HrlWord.read (x : HrlWord) : List BM_HRL_WORD := List.replicate x.readLen x.value

variable (s : Scan)

/-- The uncompressed words of the first `k` words ahead. -/
def Scan.readUpTo (k : Nat) : List BM_HRL_WORD :=
  ((List.range' s.result.lastScanWordNo k).map s.words.hrl).flatMap read

/-- The uncompressed words from the current one on. -/
def Scan.ahead : List BM_HRL_WORD := s.readUpTo s.words.nwords

/-- The number of words from the first tid of the batch to the given tid. -/
def Scan.distance (tid : Nat) : Nat := (tid - s.words.firstTid) / 64

/-- The next tid lies inside a word, neither at its start nor at its end. -/
def Scan.InsideFill : Prop :=
  ∃ k < s.words.nwords, (s.readUpTo k).length < s.distance s.result.nextTid ∧
    s.distance s.result.nextTid < (s.readUpTo (k + 1)).length

/-- What catching up from `s` should reach: all words are consumed or the words ahead start at the
next tid, and the words ahead are those of `s` from the next tid on. -/
structure Scan.CaughtUp (s s' : Scan) : Prop where
  meets : s'.words.nwords = 0 ∨ s'.words.firstTid = s'.result.nextTid
  ahead : s'.ahead = s.ahead.drop (s.distance s'.result.nextTid)

/-- What is known of a batch when catching up starts: the words exist and the tids are at word
boundaries. -/
structure Scan.Aligned : Prop where
  inside : s.result.lastScanWordNo + s.words.nwords ≤ s.words.cwords.length
  le : s.words.firstTid ≤ s.result.nextTid
  aligned : s.words.firstTid % 64 = s.result.nextTid % 64
  nextTid : s.result.nextTid < 2 ^ 64

variable {s s' s₁ : Scan}

theorem HrlWord.read_length (x : HrlWord) : x.read.length = x.readLen := by
  exact length_replicate

theorem readUpTo_zero : s.readUpTo 0 = [] := rfl

theorem ahead_length (h : s.words.nwords > 0) :
    s.ahead.length = s.cur.readLen + (s.tail.flatMap read).length := by
  obtain ⟨n, hn⟩ : ∃ n, s.words.nwords = n + 1 := ⟨s.words.nwords - 1, by omega⟩
  unfold Scan.ahead Scan.readUpTo Scan.tail Scan.cur
  rw [hn, range'_succ, map_cons, flatMap_cons, length_append, read_length, Nat.add_sub_cancel]

theorem readLen_of_fill {x : HrlWord} (hfill : x.fill = true) (hword : x.word ≠ 0) :
    x.readLen = fillLength x.word := by
  rw [readLen, if_neg fun h => hword h.2, len, if_pos hfill]

theorem readLen_of_not_fill {x : HrlWord} (h : ¬(x.fill = true ∧ x.word ≠ 0)) : x.readLen = 1 := by
  unfold readLen len
  by_cases hfill : x.fill = true
  · rw [if_pos ⟨hfill, not_not.1 fun hword => h ⟨hfill, hword⟩⟩]
  · rw [if_neg fun h => hfill h.1, if_neg hfill]

theorem readLen_fill_sub {w : BM_HRL_WORD} {n : Nat} (h : n < fillLength w) :
    readLen ⟨true, w - BitVec.ofNat 64 n⟩ = fillLength w - n := by
  have hlen := (fill_sub (Nat.le_of_lt h)).1
  unfold readLen len
  dsimp only
  rw [if_neg, if_pos rfl, hlen]
  rintro ⟨-, hzero⟩
  rw [hzero] at hlen
  have hnone : fillLength 0 = 0 := by decide
  omega

/-! ## What a round does to the words -/

/-- The catch-up leaves the current word. -/
def Scan.skipWord (s : Scan) (firstTid : Nat) (cwords : List BM_HRL_WORD) : Scan :=
  ⟨{ s.words with firstTid := firstTid, cwords := cwords, nwords := s.words.nwords - 1 },
    { s.result with lastScanWordNo := s.result.lastScanWordNo + 1 }⟩

/-- The catch-up takes `n` words off the current fill word. -/
def Scan.cutFill (s : Scan) (firstTid n : Nat) : Scan :=
  let no := s.result.lastScanWordNo
  ⟨{ s.words with
      firstTid := firstTid
      cwords := s.words.cwords.set no (s.words.cword no - BitVec.ofNat 64 n) }, s.result⟩

/-- The words behind the current one are left alone. -/
def Scan.SameBehind (s : Scan) (cwords : List BM_HRL_WORD) : Prop :=
  cwords.length = s.words.cwords.length ∧
    ∀ i, s.result.lastScanWordNo < i → cwords.getD i 0 = s.words.cwords.getD i 0

theorem sameBehind_set (word : BM_HRL_WORD) :
    s.SameBehind (s.words.cwords.set s.result.lastScanWordNo word) := by
  refine ⟨length_set .., fun i hi => ?_⟩
  rw [getD_eq_getElem?_getD, getElem?_set_ne (by omega), ← getD_eq_getElem?_getD]

theorem skipWord_hrl {firstTid : Nat} {cwords : List BM_HRL_WORD} (h : s.SameBehind cwords)
    {i : Nat} (hi : s.result.lastScanWordNo < i) :
    (s.skipWord firstTid cwords).words.hrl i = s.words.hrl i :=
  congrArg (HrlWord.mk _) (h.2 i hi)

theorem skipWord_ahead {firstTid : Nat} {cwords : List BM_HRL_WORD} (h : s.SameBehind cwords) :
    (s.skipWord firstTid cwords).ahead = s.tail.flatMap read :=
  congrArg (flatMap read) (map_congr_left fun _ hi => skipWord_hrl h (mem_range'_1.1 hi).1)

theorem cutFill_hrl {firstTid n i : Nat} (hi : s.result.lastScanWordNo < i) :
    (s.cutFill firstTid n).words.hrl i = s.words.hrl i :=
  congrArg (HrlWord.mk _) ((sameBehind_set _).2 i hi)

theorem cutFill_tail {firstTid n : Nat} : (s.cutFill firstTid n).tail = s.tail :=
  map_congr_left fun _ hi => cutFill_hrl (mem_range'_1.1 hi).1

theorem cutFill_cur {firstTid n : Nat} (hin : s.result.lastScanWordNo < s.words.cwords.length) :
    (s.cutFill firstTid n).cur = ⟨s.cur.fill, s.cur.word - BitVec.ofNat 64 n⟩ :=
  hrl_set_self (b := { s.words with firstTid := firstTid }) hin

section

variable (hn : s.words.nwords > 0) (hbehind : s.words.firstTid < s.result.nextTid)
include hn hbehind

/-- A round at a literal word, or at a fill word that is zero. -/
theorem catchupRound_one (h : s.cur.fill = true →
      s.cur.word = 0 ∧ wrap (s.words.firstTid + 64) ≤ s.result.nextTid) :
    catchupRound s = some (.inl (s.skipWord (wrap (s.words.firstTid + 64)) s.words.cwords)) := by
  unfold catchupRound
  rw [if_pos ⟨hn, hbehind⟩]
  by_cases hfill : s.cur.fill = true
  · obtain ⟨hzero, hle⟩ := h hfill
    show (if s.cur.fill = true then if s.cur.word = 0 then _ else _ else _) = _
    rw [if_pos hfill, if_pos hzero]
    dsimp only
    rw [if_neg (Nat.not_lt.2 hle)]
    rfl
  · exact if_neg hfill

/-- A round at another fill word. -/
theorem catchupRound_fill (hfill : s.cur.fill = true) (hword : s.cur.word ≠ 0) (use : Nat)
    (huse : use = min ((s.result.nextTid - s.words.firstTid) / 64 + 1) (fillLength s.cur.word)) :
    catchupRound s =
      if fillLength s.cur.word - use = 0 then
        some (.inl (s.skipWord (wrap (s.words.firstTid + use * 64))
          (s.words.cwords.set s.result.lastScanWordNo (s.cur.word - BitVec.ofNat 64 use))))
      else if wrap (s.words.firstTid + use * 64) ≥ s.result.nextTid then
        some (.inr (s.cutFill (wrap (s.words.firstTid + use * 64)) use))
      else some (.inl ⟨(s.cutFill (wrap (s.words.firstTid + use * 64)) use).words,
        { s.result with lastScanWordNo := s.result.lastScanWordNo + 1 }⟩) := by
  subst huse
  unfold catchupRound
  rw [if_pos ⟨hn, hbehind⟩]
  show (if s.cur.fill = true then if s.cur.word = 0 then _ else _ else _) = _
  rw [if_pos hfill, if_neg hword]
  rfl

end

/-! ## Leaving a word -/

/-- `s₁` is `s` behind its first word, which stands for `m` words. -/
structure Scan.Leaves (s s₁ : Scan) : Prop where
  nwords : s.words.nwords = s₁.words.nwords + 1
  no : s₁.result.lastScanWordNo = s.result.lastScanWordNo + 1
  hrl : ∀ i, s.result.lastScanWordNo < i → s₁.words.hrl i = s.words.hrl i
  firstTid : s₁.words.firstTid = s.words.firstTid + 64 * s.cur.readLen
  nextTid : s₁.result.nextTid = s.result.nextTid

section

variable (h : s.Leaves s₁)
include h

theorem Scan.Leaves.readUpTo (k : Nat) : s.readUpTo (k + 1) = s.cur.read ++ s₁.readUpTo k := by
  unfold Scan.readUpTo
  rw [range'_succ, map_cons, flatMap_cons, h.no]
  congr 2
  refine map_congr_left fun i hi => ?_
  have hi' := (mem_range'_1.1 hi).1
  exact (h.hrl i (by omega)).symm

theorem Scan.Leaves.ahead : s.ahead = s.cur.read ++ s₁.ahead := by
  unfold Scan.ahead
  rw [h.nwords]
  exact h.readUpTo _

theorem Scan.Leaves.distance {tid : Nat} (hle : s₁.words.firstTid ≤ tid) :
    s.distance tid = s.cur.readLen + s₁.distance tid := by
  have hf := h.firstTid
  unfold Scan.distance
  omega

theorem Scan.Leaves.insideFill_iff (hle : s₁.words.firstTid ≤ s₁.result.nextTid) :
    s.InsideFill ↔ s₁.InsideFill := by
  have hd := h.distance hle
  rw [h.nextTid] at hd
  have hlen : ∀ k, (s.readUpTo (k + 1)).length = s.cur.readLen + (s₁.readUpTo k).length := by
    intro k
    rw [h.readUpTo, length_append, read_length]
  unfold InsideFill
  rw [hd, h.nwords, h.nextTid]
  constructor
  · rintro ⟨k, hk, hlt, hgt⟩
    cases k with
    | zero =>
      rw [hlen, readUpTo_zero, length_nil] at hgt
      omega
    | succ k =>
      rw [hlen] at hlt hgt
      exact ⟨k, by omega, by omega, by omega⟩
  · rintro ⟨k, hk, hlt, hgt⟩
    refine ⟨k + 1, by omega, ?_, ?_⟩
    · rw [hlen]
      omega
    · rw [hlen]
      omega

theorem Scan.Leaves.caughtUp (hle : s₁.words.firstTid ≤ s'.result.nextTid)
    (h₁ : s₁.CaughtUp s') : s.CaughtUp s' := by
  refine ⟨h₁.meets, ?_⟩
  rw [h.ahead, h.distance hle, h₁.ahead, ← drop_drop, ← read_length, drop_left]

end

/-! ## One round -/

theorem catchupRound_leaves (ha : s.Aligned) (hn : s.words.nwords > 0)
    (hlt : s.words.firstTid < s.result.nextTid)
    (hfit : s.cur.readLen ≤ s.distance s.result.nextTid) :
    ∃ s₁, catchupRound s = some (.inl s₁) ∧ s.Leaves s₁ ∧ s₁.Aligned := by
  obtain ⟨hin, -, hal, hmax⟩ := ha
  have hdist : 64 * s.distance s.result.nextTid = s.result.nextTid - s.words.firstTid := by
    unfold distance
    omega
  have hwrap : wrap (s.words.firstTid + s.cur.readLen * 64) =
      s.words.firstTid + s.cur.readLen * 64 := Nat.mod_eq_of_lt (by omega)
  obtain ⟨cwords, hround, hsame⟩ : ∃ cwords, catchupRound s =
      some (.inl (s.skipWord (s.words.firstTid + s.cur.readLen * 64) cwords)) ∧
      s.SameBehind cwords := by
    by_cases hword : s.cur.fill = true ∧ s.cur.word ≠ 0
    · have hlen := readLen_of_fill hword.1 hword.2
      rw [← hwrap, catchupRound_fill hn hlt hword.1 hword.2 s.cur.readLen (by omega),
        if_pos (by omega)]
      exact ⟨_, rfl, sameBehind_set _⟩
    rw [readLen_of_not_fill hword] at hfit hwrap ⊢
    rw [Nat.one_mul] at hwrap ⊢
    rw [← hwrap]
    refine ⟨_, catchupRound_one hn hlt fun hfill => ?_, rfl, fun _ _ => rfl⟩
    exact ⟨not_not.1 fun hzero => hword ⟨hfill, hzero⟩, by omega⟩
  refine ⟨_, hround, ⟨?_, rfl, fun i => skipWord_hrl hsame, ?_, rfl⟩, ?_, ?_, ?_, hmax⟩
  · exact (Nat.sub_add_cancel hn).symm
  · exact congrArg _ (Nat.mul_comm _ _)
  · show s.result.lastScanWordNo + 1 + (s.words.nwords - 1) ≤ cwords.length
    rw [hsame.1]
    omega
  · show s.words.firstTid + s.cur.readLen * 64 ≤ s.result.nextTid
    omega
  · show (s.words.firstTid + s.cur.readLen * 64) % 64 = s.result.nextTid % 64
    omega

theorem catchupRound_stop (h : s.words.nwords = 0 ∨ s.result.nextTid ≤ s.words.firstTid) :
    catchupRound s = some (.inr s) := by
  unfold catchupRound
  rw [if_neg (by omega)]

/-- A round in a fill word that the next tid lies inside of: one word more than needed is consumed,
whether the word is left or not. -/
theorem catchupRound_overshoots (ha : s.Aligned) (hn : s.words.nwords > 0)
    (hlt : s.words.firstTid < s.result.nextTid) (hmax : s.result.nextTid + 64 < 2 ^ 64)
    (hinside : s.distance s.result.nextTid < s.cur.readLen) :
    ∃ s₁, (catchupRound s = some (.inl s₁) ∨ catchupRound s = some (.inr s₁)) ∧
      s₁.result.nextTid = s.result.nextTid ∧ s₁.words.firstTid = s.result.nextTid + 64 ∧
      s₁.ahead.length + s.distance s.result.nextTid + 1 = s.ahead.length := by
  have hin := ha.inside
  have hal := ha.aligned
  have hdist : 64 * s.distance s.result.nextTid = s.result.nextTid - s.words.firstTid := by
    unfold distance
    omega
  -- only a fill word that is not zero is longer than one word
  obtain ⟨hfill, hword⟩ : s.cur.fill = true ∧ s.cur.word ≠ 0 := by
    by_contra hword
    have hone := readLen_of_not_fill hword
    omega
  have hlen := readLen_of_fill hfill hword
  have hwrap : wrap (s.words.firstTid + (s.distance s.result.nextTid + 1) * 64) =
      s.result.nextTid + 64 := by
    unfold wrap
    omega
  have hsplit := ahead_length hn
  rw [catchupRound_fill hn hlt hfill hword (s.distance s.result.nextTid + 1) (by omega),
    hwrap]
  by_cases hrest : fillLength s.cur.word - (s.distance s.result.nextTid + 1) = 0
  · rw [if_pos hrest]
    refine ⟨_, .inl rfl, rfl, rfl, ?_⟩
    rw [skipWord_ahead (sameBehind_set _)]
    omega
  rw [if_neg hrest, if_pos (by omega)]
  refine ⟨_, .inr rfl, rfl, rfl, ?_⟩
  rw [ahead_length (by exact hn), cutFill_tail, cutFill_cur (by omega), hfill, hsplit,
    readLen_fill_sub (by omega)]
  omega

/-! ## Catching up -/

/-- **Catching up leaves the words from the next tid on, if the next tid is not inside a fill
word.** -/
theorem catchup_caughtUp (n : Nat) (hn : s.words.nwords = n) (ha : s.Aligned)
    (hout : ¬ s.InsideFill) : ∃ s', bitmapCatchupToNextTid (n + 1) s = some s' ∧
    s'.result.nextTid = s.result.nextTid ∧ s.CaughtUp s' := by
  induction n generalizing s with
  | zero =>
    refine ⟨s, loop_inr (catchupRound_stop (.inl hn)) _, rfl, .inl hn, ?_⟩
    have hnil : s.ahead = [] := by
      unfold ahead
      rw [hn, readUpTo_zero]
    rw [hnil, drop_nil]
  | succ n ih =>
    by_cases hlt : s.words.firstTid < s.result.nextTid
    · have hfit : s.cur.readLen ≤ s.distance s.result.nextTid := by
        by_contra hfit
        refine hout ⟨0, by omega, ?_, ?_⟩
        · have := ha.aligned
          rw [readUpTo_zero, length_nil]
          unfold distance
          omega
        · have hone : s.readUpTo (0 + 1) = s.cur.read ++ [] := rfl
          rw [hone, append_nil, read_length]
          omega
      obtain ⟨s₁, hround, hleaves, ha₁⟩ := catchupRound_leaves ha (by omega) hlt hfit
      have hn₁ := hleaves.nwords
      obtain ⟨s', hrun, hnext, hcaught⟩ :=
        ih (by omega) ha₁ (fun h => hout ((hleaves.insideFill_iff ha₁.le).2 h))
      refine ⟨s', (loop_inl hround _).trans hrun, hnext.trans hleaves.nextTid, ?_⟩
      exact hleaves.caughtUp (by rw [hnext]; exact ha₁.le) hcaught
    · refine ⟨s, loop_inr (catchupRound_stop (.inr (by omega))) _, rfl, .inr ?_, ?_⟩
      · have := ha.le
        omega
      have hzero : s.distance s.result.nextTid = 0 := by
        unfold distance
        omega
      rw [hzero, drop_zero]

/-- **If the next tid is inside a fill word, words from the next tid on are skipped.** -/
theorem catchup_skips (n : Nat) (hn : s.words.nwords = n) (ha : s.Aligned)
    (hmax : s.result.nextTid + 64 < 2 ^ 64) (hinside : s.InsideFill) {fuel : Nat}
    (hrun : bitmapCatchupToNextTid fuel s = some s') :
    s'.result.nextTid = s.result.nextTid ∧
    s'.ahead.length + s.distance s.result.nextTid < s.ahead.length := by
  induction n generalizing s fuel with
  | zero =>
    obtain ⟨k, hk, -⟩ := hinside
    omega
  | succ n ih =>
    obtain ⟨k, -, hlow, -⟩ := id hinside
    have hpos : s.words.firstTid < s.result.nextTid := by
      unfold distance at hlow
      omega
    obtain ⟨fuel, rfl, -⟩ := loop_some hrun
    unfold bitmapCatchupToNextTid at hrun
    by_cases hfit : s.cur.readLen ≤ s.distance s.result.nextTid
    · obtain ⟨s₁, hround, hleaves, ha₁⟩ := catchupRound_leaves ha (by omega) hpos hfit
      rw [loop_inl hround] at hrun
      have hn₁ := hleaves.nwords
      obtain ⟨hnext, hlen⟩ := ih (by omega) ha₁ (by rw [hleaves.nextTid]; exact hmax)
        ((hleaves.insideFill_iff ha₁.le).1 hinside) hrun
      have hd := hleaves.distance ha₁.le
      have hlenAhead := congrArg length hleaves.ahead
      rw [length_append, read_length] at hlenAhead
      rw [hleaves.nextTid] at hd hnext hlen
      exact ⟨hnext, by omega⟩
    · obtain ⟨s₁, hround, hnext, hfirst, hlen⟩ :=
        catchupRound_overshoots ha (by omega) hpos hmax (by omega)
      suffices hs' : some s₁ = some s' from some.inj hs' ▸ ⟨hnext, by omega⟩
      rcases hround with hround | hround
      · -- the first tid is past the next tid now, so the loop ends
        rw [loop_inl hround] at hrun
        obtain ⟨fuel, rfl, -⟩ := loop_some hrun
        rwa [loop_inr (catchupRound_stop (.inr (by omega)))] at hrun
      · rwa [loop_inr hround] at hrun

/-- **Catching up reaches the next tid exactly when it does not lie inside a fill word**; the next
tid itself stays in either case.  The second part leaves out next tids in the last word below
`2^64`, where the first tid wraps around. -/
theorem bitmapCatchupToNextTid_exact (s : Scan) (ha : s.Aligned) :
    (¬ s.InsideFill → ∃ s', bitmapCatchupToNextTid (s.words.nwords + 1) s = some s' ∧
    s'.result.nextTid = s.result.nextTid ∧ s.CaughtUp s') ∧
    (s.InsideFill → s.result.nextTid + 64 < 2 ^ 64 →
      ∀ fuel s', bitmapCatchupToNextTid fuel s = some s' →
        s'.result.nextTid = s.result.nextTid ∧ ¬ s.CaughtUp s') := by
  refine ⟨catchup_caughtUp s.words.nwords rfl ha, ?_⟩
  intro hinside hmax fuel s' hrun
  obtain ⟨hnext, hlen⟩ := catchup_skips s.words.nwords rfl ha hmax hinside hrun
  refine ⟨hnext, fun hcaught => ?_⟩
  have hahead := congrArg length hcaught.ahead
  rw [length_drop, hnext] at hahead
  omega

/-- A fill word of `n` words of ones and a literal word; the scan starts at tid 1. -/
def onesThenLiteral (n nextTid : Nat) : Scan :=
  ⟨{ firstTid := 1, startNo := 0, nwords := 2, hwords := [1#64 <<< 63],
     cwords := [makeFillWord true n, 5] },
    { nextTid := nextTid, lastScanPos := 0, lastScanWordNo := 0, nextTids := [], nextTidLoc := 0 }⟩

theorem bitmapCatchupToNextTid_boundary :
    ∃ s', bitmapCatchupToNextTid 3 (onesThenLiteral 2 129) = some s' ∧
    s'.result.nextTid = 129 ∧ (onesThenLiteral 2 129).CaughtUp s' :=
  (bitmapCatchupToNextTid_exact (onesThenLiteral 2 129)
    ⟨by decide, by decide, by decide, by decide⟩).1 (by unfold InsideFill; decide)

/-- Tid 65 is inside the fill word: the words left start at tid 129, but the next tid stays 65. -/
theorem bitmapCatchupToNextTid_skips_word : (onesThenLiteral 3 65).Aligned ∧
      ∃ s', bitmapCatchupToNextTid 3 (onesThenLiteral 3 65) = some s' ∧ s'.words.nwords = 2 ∧
        s'.words.firstTid = 129 ∧ s'.result.nextTid = 65 ∧
        ¬ (onesThenLiteral 3 65).CaughtUp s' := by
  refine ⟨⟨by decide, by decide, by decide, by decide⟩, _, rfl, rfl, by decide, rfl, ?_⟩
  intro h
  have hahead := h.ahead
  revert hahead
  decide

end PolemoDB.Bitmap
